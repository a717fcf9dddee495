import Drakeydb.Mvcc.Epoch

/-!
# Where the Stamps of an Epoch Come From

A key's stamp advances only with a journaled entry or with its own expiry. The history of the epoch
is kept beside the state: every arm remembers a mutation since the last commit, and every slot that
has changed remembers the entry or the expiry that wrote it.

An update that no entry follows leaves the stamp of the entry before it, so the entry of a stamp
need not come after the last mutation of the key; and what an applied stamp is floored by is the
stamp the key had when it was armed, not the one from before the epoch.
-/

namespace Drakeydb.Mvcc

open List MvccStamp MvccStamper DbSlice Bool

section History

variable {K V : Type*} [DecidableEq K] {s : DbSlice K V} {ops : List (EpochOp K)} {key : K}

/-! ## §1 The invariant -/

/-- What the history says about a slot. -/
inductive SlotOrigin (s : DbSlice K V) (ops : List (EpochOp K)) (armed : List (Armed K)) (key : K) :
    Option MvccStamp → Prop where
  | untouched : SlotOrigin s ops armed key (s.table.getMvcc key)
  | absent : SlotOrigin s ops armed key none
  | empty : SlotOrigin s ops armed key (some MvccStamp.zero)
  | pending {a : Armed K} (ha : a ∈ armed) (hkey : a.key = key) (ht : a.tombstone = true) :
      SlotOrigin s ops armed key (some placeholder)
  | committed {stamp : MvccStamp} (h : CommittedBy s ops key stamp) (hne : stamp ≠ placeholder) :
      SlotOrigin s ops armed key (some stamp)
  | expired {stamp : MvccStamp} (h : ExpiredTo s ops key stamp) :
      SlotOrigin s ops armed key (some stamp)

/-- The arms of one key, in arming order. -/
def armsOf (key : K) (armed : List (Armed K)) : List (Armed K) :=
  armed.filter fun a => decide (a.key = key)

theorem armsOf_concat_getLast? (key : K) (as : List (Armed K)) (a : Armed K) :
    (armsOf key (as ++ [a])).getLast?
      = if a.key = key then some a else (armsOf key as).getLast? := by
  unfold armsOf
  split
  · simp [*]
  · simp [*]

variable {armed : List (Armed K)}

theorem armsOf_eq_nil (h : ∀ a ∈ armed, a.key ≠ key) :
    armsOf key armed = [] := filter_eq_nil_iff.mpr fun a ha => by simpa using h a ha

/-- The invariant of an epoch with the history `ops`. -/
structure EpochInv (s : DbSlice K V) (ops : List (EpochOp K)) (s1 : DbSlice K V) : Prop where
  originHash : s1.stamper.originHash = s.stamper.originHash
  first : TombstoneFirst s1.stamper.armed
  arms : ∀ a ∈ s1.stamper.armed, MutatedSince s ops a.key a.prevStamp
  deleted : ∀ a ∈ s1.stamper.armed, a.tombstone = true → DeletedAt s ops a.key a.prevStamp
  last : ∀ key a, (armsOf key s1.stamper.armed).getLast? = some a →
    LastMutation ops key a.tombstone
  updated : ∀ key, PendingUpdate ops key → ∃ a ∈ s1.stamper.armed, a.key = key ∧ a.tombstone = false
  slot : ∀ key, SlotOrigin s ops s1.stamper.armed key (s1.table.getMvcc key)

theorem EpochInv.start (h : s.Quiet) : EpochInv s [] s where
  originHash := rfl
  first := h.unarmed ▸ List.Pairwise.nil
  arms a ha := absurd (h.unarmed ▸ ha) not_mem_nil
  deleted a ha := absurd (h.unarmed ▸ ha) not_mem_nil
  last key a heq := by
    rw [h.unarmed] at heq
    cases heq
  updated key hup := by
    obtain ⟨pre, m, post, heq, -⟩ := hup
    simp at heq
  slot key := .untouched

variable {x : EpochOp K}

/-- A slot that an operation left alone, while its arms were kept and nothing was committed. -/
theorem SlotOrigin.concat {armed armed' : List (Armed K)} {slot : Option MvccStamp}
    (h : SlotOrigin s ops armed key slot) (hdelete : x.mutation key ≠ some true)
    (hcommit : x.commits = true → ¬PendingUpdate ops key)
    (harmed : slot = some placeholder → ∀ a ∈ armed, a.key = key → a.tombstone = true →
      a ∈ armed') :
    SlotOrigin s (ops ++ [x]) armed' key slot := by
  cases h with
  | untouched => exact .untouched
  | absent => exact .absent
  | empty => exact .empty
  | pending ha hkey ht => exact .pending (harmed rfl _ ha hkey ht) hkey ht
  | committed h hne => exact .committed (h.concat hdelete hcommit) hne
  | expired h => exact .expired (h.concat x)

/-! ## §2 One operation -/

variable {s1 s2 : DbSlice K V}

/-- The arms of an epoch, while the operation on `key` is going on. -/
structure ArmsBut (s : DbSlice K V) (ops : List (EpochOp K)) (key : K)
    (armed : List (Armed K)) : Prop where
  first : TombstoneFirst armed
  arms : ∀ a ∈ armed, MutatedSince s ops a.key a.prevStamp
  deleted : ∀ a ∈ armed, a.tombstone = true → DeletedAt s ops a.key a.prevStamp
  last : ∀ j ≠ key, ∀ a, (armsOf j armed).getLast? = some a → LastMutation ops j a.tombstone
  updated : ∀ j ≠ key, PendingUpdate ops j → ∃ a ∈ armed, a.key = j ∧ a.tombstone = false

/-- An operation that mutates one key and commits nothing keeps the arms of the others. -/
theorem EpochInv.armsBut (h : EpochInv s ops s1) (hother : ∀ j ≠ key, x.mutation j = none)
    (hcommit : x.commits = false) (hsub : armed.Sublist s1.stamper.armed)
    (hkeep : ∀ j ≠ key, armsOf j armed = armsOf j s1.stamper.armed)
    (hdeleted : ∀ a ∈ armed, x.mutation a.key ≠ some true) : ArmsBut s (ops ++ [x]) key armed where
  first := h.first.sublist hsub
  arms a ha := (h.arms a (hsub.subset ha)).concat hcommit
  deleted a ha ht := (h.deleted a (hsub.subset ha) ht).concat (hdeleted a ha)
  last j hj a ha := (h.last j a (hkeep j hj ▸ ha)).concat (hother j hj) hcommit
  updated j hj hup := by
    rcases hup.of_concat with hmut | ⟨hup, -⟩
    · rw [hother j hj] at hmut
      cases hmut
    · obtain ⟨a, ha, hrest⟩ := h.updated j hup
      have hmem : a ∈ armsOf j s1.stamper.armed := mem_filter.mpr ⟨ha, by simpa using hrest.1⟩
      rw [← hkeep j hj] at hmem
      exact ⟨a, (mem_filter.mp hmem).1, hrest⟩

/-- The key is armed. -/
theorem ArmsBut.arm (h : ArmsBut s ops key armed) {tombstone : Bool} {prev : MvccStamp}
    (horigin : s2.stamper.originHash = s.stamper.originHash)
    (harmed : s2.stamper.armed = armed ++ [⟨key, tombstone, prev⟩])
    (hfirst : ∀ a ∈ armed, a.key = key → tombstone = false) (hmut : MutatedSince s ops key prev)
    (hdel : tombstone = true → DeletedAt s ops key prev) (hlast : LastMutation ops key tombstone)
    (hup : tombstone = true → ¬PendingUpdate ops key)
    (hslot : ∀ j, SlotOrigin s ops s2.stamper.armed j (s2.table.getMvcc j)) :
      EpochInv s ops s2 where
  originHash := horigin
  first := by
    rw [harmed]
    exact pairwise_append.mpr ⟨h.first, pairwise_singleton _ _, fun a ha =>
      forall_mem_singleton.mpr (hfirst a ha)⟩
  arms := by
    rw [harmed]
    exact forall_mem_append.mpr ⟨h.arms, forall_mem_singleton.mpr hmut⟩
  deleted := by
    rw [harmed]
    exact forall_mem_append.mpr ⟨h.deleted, forall_mem_singleton.mpr hdel⟩
  last j a ha := by
    rw [harmed, armsOf_concat_getLast?] at ha
    by_cases hj : key = j
    · rw [if_pos hj] at ha
      cases ha
      exact hj ▸ hlast
    · rw [if_neg hj] at ha
      exact h.last j (Ne.symm hj) a ha
  updated j hpending := by
    rw [harmed]
    by_cases hj : j = key
    · subst hj
      exact ⟨_, mem_append_cons_self, rfl, Bool.eq_false_iff.mpr fun ht => hup ht hpending⟩
    · obtain ⟨a, ha, hrest⟩ := h.updated j hj hpending
      exact ⟨a, mem_append_left _ ha, hrest⟩
  slot := hslot

section

variable (h : EpochInv s ops s1)
include h

section

variable (hrun : Lib.run DbSlice.epochStep s ops = some s1)
include hrun

theorem postUpdate_epochInv (key : K) :
    EpochInv s (ops ++ [.postUpdate key]) (s1.postUpdate key) := by
  obtain ⟨hother, hself, hstamper⟩ := s1.postUpdate_cases key
  have hmut (j : K) : (EpochOp.postUpdate key).mutation j = if key = j then some false
    else none := rfl
  have hdel (j : K) : (EpochOp.postUpdate key).mutation j ≠ some true := by
    rw [hmut]
    split <;> simp
  have harmed : (s1.postUpdate key).stamper.armed = s1.stamper.armed
      ++ [⟨key, false, s1.stamper.effectivePrev key (s1.stampOf key)⟩] := by
    rw [hstamper]
    rfl
  have hprev : MutatedSince s (ops ++ [.postUpdate key]) key
      (s1.stamper.effectivePrev key (s1.stampOf key)) := by
    have hnow : MutatedSince s (ops ++ [.postUpdate key]) key (s1.stampOf key) :=
      .now hrun (by simp [hmut])
    -- a placeholder hands over the stamp of the pending delete
    unfold effectivePrev
    split
    · split
      case h_1 b hb =>
        obtain ⟨hpb, hmem⟩ := And.intro (find?_some hb) (mem_of_find?_eq_some hb)
        simp only [and_eq_true, decide_eq_true_eq] at hpb
        have hb' := (h.arms b hmem).concat (x := .postUpdate key) rfl
        rwa [hpb.2] at hb'
      case h_2 => exact hnow
    · exact hnow
  have hbut : ArmsBut s (ops ++ [.postUpdate key]) key s1.stamper.armed :=
    h.armsBut (x := .postUpdate key) (fun j hj => if_neg (Ne.symm hj)) rfl (.refl _)
      (fun _ _ => rfl)
      fun a _ => hdel a.key
  refine hbut.arm (by rw [hstamper]; exact h.originHash) harmed
    (fun _ _ _ => rfl) hprev Bool.noConfusion
    (.now (if_pos rfl)) Bool.noConfusion fun j => ?_
  have hkeep : SlotOrigin s (ops ++ [.postUpdate key]) (s1.postUpdate key).stamper.armed j
      (s1.table.getMvcc j) :=
    (h.slot j).concat (hdel j) (fun hc => by cases hc) fun _ a ha _ _ => by
      exact mem_append_left _ ha
  by_cases hj : j = key
  · subst hj
    rcases hself with ⟨hsame, -⟩ | hzero
    · rwa [hsame]
    · rw [hzero]
      exact .empty
  · rwa [hother j hj]

theorem delete_epochInv (cfg : TombstoneConfig) (key : K) (reason : DeleteReason) :
    EpochInv s (ops ++ [.delete cfg key reason]) (s1.performDeletionAtomic cfg key reason) := by
  obtain ⟨hother, horigin, hcases⟩ := s1.performDeletionAtomic_cases cfg key reason
  have hself : (EpochOp.delete cfg key reason).mutation key = some true := if_pos rfl
  have hne (j : K) (hj : j ≠ key) : (EpochOp.delete cfg key reason).mutation j = none :=
    if_neg (Ne.symm hj)
  have hdisarm {a : Armed K} : a ∈ (s1.stamper.disarm key).armed ↔
      a ∈ s1.stamper.armed ∧ a.key ≠ key := by simp [disarm, mem_filter]
  have hbut : ArmsBut s (ops ++ [.delete cfg key reason]) key (s1.stamper.disarm key).armed := by
    refine h.armsBut hne rfl filter_sublist (fun j hj => ?_) fun a ha => by
      simp [hne _ (hdisarm.mp ha).2]
    unfold armsOf disarm
    rw [filter_filter]
    refine filter_congr fun b _ => ?_
    by_cases hb : b.key = j <;> simp [hb, hj]
  have hpending : ¬PendingUpdate (ops ++ [.delete cfg key reason]) key := fun hup => by
    rcases hup.of_concat with hj | ⟨-, hj, -⟩
    · rw [hself] at hj
      cases hj
    · exact hj hself
  have hslot (j) (hj : j ≠ key) {armed : List (Armed K)}
      (hsub : ∀ a ∈ (s1.stamper.disarm key).armed, a ∈ armed) :
      SlotOrigin s (ops ++ [.delete cfg key reason]) armed j
        ((s1.performDeletionAtomic cfg key reason).table.getMvcc j) := by
    rw [hother j hj]
    exact (h.slot j).concat (by simp [hne j hj]) (fun hc => by cases hc) fun _ a ha hak _ =>
      hsub a (hdisarm.mpr ⟨ha, hak ▸ hj⟩)
  rcases hcases with ⟨hplace, harmed⟩ | ⟨hnone, harmed⟩
  · refine hbut.arm (horigin.trans h.originHash) harmed
      (fun a ha hak => absurd hak (hdisarm.mp ha).2)
      (.now hrun (by simp [hself])) (fun _ => .now hrun hself) (.now hself)
        (fun _ => hpending) fun j => ?_
    by_cases hj : j = key
    · subst hj
      rw [hplace]
      exact .pending (harmed ▸ mem_append_cons_self) rfl rfl
    · exact hslot j hj fun a ha => harmed ▸ mem_append_left _ ha
  · rw [← harmed] at hbut hslot
    refine ⟨horigin.trans h.originHash, hbut.first, hbut.arms, hbut.deleted, fun j a ha => ?_,
      fun j hup => ?_, fun j => ?_⟩
    · refine hbut.last j (fun hj => ?_) a ha
      rw [hj, harmed, armsOf_eq_nil fun a ha => (hdisarm.mp ha).2] at ha
      cases ha
    · exact hbut.updated j (fun hj => hpending (hj ▸ hup)) hup
    · by_cases hj : j = key
      · subst hj
        rw [hnone]
        exact .absent
      · exact hslot j hj fun _ ha => ha

end

/-- An operation that mutates nothing, commits nothing and may settle tombstone arms. -/
private theorem settle_epochInv (hmut : ∀ j, x.mutation j = none) (hcommit : x.commits = false)
    (horigin : s2.stamper.originHash = s1.stamper.originHash)
    (hsub : s2.stamper.armed.Sublist s1.stamper.armed)
    (hlast : ∀ j a, (armsOf j s2.stamper.armed).getLast? = some a →
      (armsOf j s1.stamper.armed).getLast? = some a)
    (hplain : ∀ a ∈ s1.stamper.armed, a.tombstone = false → a ∈ s2.stamper.armed)
    (hslot : ∀ j, SlotOrigin s (ops ++ [x]) s2.stamper.armed j (s2.table.getMvcc j)) :
    EpochInv s (ops ++ [x]) s2 where
  originHash := horigin.trans h.originHash
  first := h.first.sublist hsub
  arms a ha := (h.arms a (hsub.subset ha)).concat hcommit
  deleted a ha ht := (h.deleted a (hsub.subset ha) ht).concat (by simp [hmut])
  last j a ha := (h.last j a (hlast j a ha)).concat (hmut j) hcommit
  updated j hup := by
    rcases hup.of_concat with hj | ⟨hup, -⟩
    · rw [hmut] at hj
      cases hj
    · obtain ⟨a, ha, hkey, ht⟩ := h.updated j hup
      exact ⟨a, hplain a ha ht, hkey, ht⟩
  slot := hslot

theorem recordExpiry_epochInv {key : K} {replMvcc nowMs : UInt64}
    (hstep : s1.recordExpiryBlocking key replMvcc nowMs = some s2) :
    EpochInv s (ops ++ [.recordExpiry key replMvcc nowMs]) s2 := by
  obtain ⟨horigin, hother, hcases⟩ := recordExpiryBlocking_cases hstep
  have hkeep (j) (hsame : s2.table.getMvcc j = s1.table.getMvcc j)
      (harmed : ∀ a ∈ s1.stamper.armed, a.key = j → a.tombstone = true → a ∈ s2.stamper.armed) :
      SlotOrigin s (ops ++ [.recordExpiry key replMvcc nowMs]) s2.stamper.armed j
        (s2.table.getMvcc j) := by
    rw [hsame]
    exact (h.slot j).concat (fun hd => nomatch hd) (fun hc => by cases hc) fun _ => harmed
  rcases hcases with ⟨-, hself, harmed⟩ | ⟨a, harm, harmed, hself⟩
  · refine settle_epochInv h (fun _ => rfl) rfl horigin (harmed ▸ .refl _)
      (fun j a ha => harmed ▸ ha) (fun a ha _ => harmed ▸ ha) fun j => hkeep j ?_ ?_
    · by_cases hj : j = key
      · rw [hj, hself]
      · exact hother j hj
    · exact fun a ha _ _ => harmed ▸ ha
  · obtain ⟨hpa, pre, post, has, -, herase⟩ := exists_of_tombstoneArm? harm
    rw [← harmed] at herase
    have hstay (b) (hb : b ∈ s1.stamper.armed) (hne : b ≠ a) : b ∈ s2.stamper.armed := by
      rw [herase]
      rw [has] at hb
      rcases mem_append.mp hb with hb | hb
      · exact mem_append_left _ hb
      · exact mem_append_right _ ((mem_cons.mp hb).resolve_left hne)
    -- the arm that goes is the first one of its key
    have hpreKey : ∀ b ∈ pre, b.key ≠ key := by
      intro b hb hbkey
      have hfirst := h.first
      rw [has] at hfirst
      have := (pairwise_append.mp hfirst).2.2 b hb a mem_cons_self (hbkey.trans hpa.2.symm)
      rw [hpa.1] at this
      cases this
    refine settle_epochInv h (fun _ => rfl) rfl horigin ?_ ?_ ?_ ?_
    · rw [herase, has]
      exact (sublist_cons_self a post).append_left pre
    · intro j b hb
      rw [herase] at hb
      rw [has]
      by_cases hj : j = key
      · subst hj
        have hnil := armsOf_eq_nil hpreKey
        unfold armsOf at hb hnil ⊢
        rw [filter_append, hnil, nil_append] at hb ⊢
        rw [filter_cons_of_pos (by simpa using hpa.2), getLast?_cons, hb]
        rfl
      · unfold armsOf at hb ⊢
        rw [filter_append, filter_cons_of_neg (by simpa [hpa.2] using Ne.symm hj)]
        rwa [filter_append] at hb
    · intro b hb hbt
      exact hstay b hb fun hba => by simp [hba, hpa.1] at hbt
    · intro j
      by_cases hj : j = key
      · subst hj
        rcases hself with hnone | ⟨hprior, hexp⟩
        · rw [hnone]
          exact .absent
        · rw [hexp]
          have hmem : a ∈ s1.stamper.armed := has ▸ mem_append_cons_self
          exact .expired ⟨ops, replMvcc, nowMs, [], a.prevStamp, rfl,
            hpa.2 ▸ h.deleted a hmem hpa.1, hprior, rfl⟩
      · exact hkeep j (hother j hj) fun b hb hbj _ => hstay b hb fun hba =>
          hj (hbj.symm.trans (hba ▸ hpa.2))

theorem recordEntry_expired_epochInv (originIdx : ℕ) (mvcc nowMs : UInt64) :
    EpochInv s (ops ++ [.recordEntry originIdx mvcc true nowMs])
      ⟨s1.table, (DbSlice.entryStamp s1.stamper mvcc nowMs).1⟩ := by
  obtain ⟨harmed, horigin⟩ := entryStamp_frame s1.stamper mvcc nowMs
  refine settle_epochInv h (fun _ => rfl) rfl horigin (harmed ▸ .refl _) (fun j a ha => harmed ▸ ha)
    (fun a ha _ => harmed.symm ▸ ha) fun j => ?_
  exact (h.slot j).concat (fun hd => nomatch hd) (fun hc => by cases hc)
    fun _ a ha _ _ => harmed.symm ▸ ha

section

variable (hrun : Lib.run DbSlice.epochStep s ops = some s1)
include hrun

theorem recordEntry_epochInv {originIdx : ℕ} {mvcc nowMs m : UInt64}
    (hrange : s1.StampInRange (.recordEntry originIdx mvcc false nowMs))
    (hstep : s1.recordEntry originIdx mvcc false nowMs = some (m, s2)) :
    EpochInv s (ops ++ [.recordEntry originIdx mvcc false nowMs]) s2 := by
  obtain ⟨hm, harmed, horigin, hslots⟩ := recordEntry_cases hstep
  have horigin₁ : (entryStamp s1.stamper mvcc nowMs).1.originHash = s.stamper.originHash :=
    (entryStamp_frame s1.stamper mvcc nowMs).2.trans h.originHash
  constructor
  case originHash => exact horigin.trans h.originHash
  case first => exact harmed ▸ List.Pairwise.nil
  case arms => exact fun a ha => absurd (harmed ▸ ha) not_mem_nil
  case deleted => exact fun a ha => absurd (harmed ▸ ha) not_mem_nil
  case last =>
    intro j a ha
    rw [harmed] at ha
    cases ha
  case updated =>
    intro j hup
    rcases hup.of_concat with hj | ⟨-, -, hc⟩
    · cases hj
    · cases hc
  case slot =>
    intro j
    rw [hslots]
    rcases lastStamp_cases (committedStamp (decide (mvcc ≠ 0))
        (entryStamp s1.stamper mvcc nowMs).1 m originIdx) s1.stamper.armed j
        (s1.table.getMvcc j) with ⟨hnone, heq⟩ | ⟨pre, a, post, has, hkey, hpost, heq⟩
    · -- a key without an arm keeps its slot, and it has no update pending
      rw [heq]
      refine (h.slot j).concat (fun hd => nomatch hd) (fun _ hup => ?_)
        fun _ a ha hak _ => absurd hak (hnone a ha)
      obtain ⟨a, ha, hak, -⟩ := h.updated j hup
      exact hnone a ha hak
    · rw [heq]
      have hmem : a ∈ s1.stamper.armed := has ▸ mem_append_cons_self
      have hlast : LastMutation ops j a.tombstone := by
        apply h.last j a
        unfold armsOf
        have hnone : post.filter (fun b => decide (b.key = j)) = [] :=
          filter_eq_nil_iff.mpr fun b hb => by simpa using hpost b hb
        rw [has, filter_append, filter_cons_of_pos (by simpa using hkey), hnone, getLast?_concat]
      have hnil : OnlyPendingUpdates ([] : List (EpochOp K)) j := by
        intro pre x post hx
        simp at hx
      by_cases happ : mvcc = 0
      · rw [DbSlice.StampInRange, if_pos happ] at hrange
        have hlt : m.toNat < 2 ^ 63 := by
          rw [hm, entryStamp, if_pos happ, UInt64.toNat_max]
          exact max_lt (mintHop_lt hrange) (localMintFloor_lt _)
        have hpos : 0 < m.toNat := by
          rw [hm, entryStamp, if_pos happ, UInt64.toNat_max]
          exact lt_max_of_lt_left (mintHop_pos hrange)
        simp only [happ, ne_eq, not_true_eq_false, decide_false]
        rw [← happ, committedStamp_local originIdx a hlt, horigin₁]
        refine .committed ⟨ops, originIdx, mvcc, nowMs, [], s1, s2, m, a.tombstone, rfl,
          hrun, hstep, hlast, .inl rfl, hnil⟩ (withTombstone_ne_placeholder (.inl ?_) _)
        rw [mk_mvcc_of_lt hlt]
        rintro rfl
        simp at hpos
      · rw [DbSlice.StampInRange, if_neg happ] at hrange
        have hmvcc : m = mvcc := by rw [hm, entryStamp, if_neg happ]
        simp only [happ, ne_eq, not_false_eq_true, decide_true]
        rw [committedStamp_applied, horigin₁]
        refine .committed ⟨ops, originIdx, mvcc, nowMs, [], s1, s2, m, a.tombstone, rfl,
          hrun, hstep, hlast, .inr ⟨happ, a.prevStamp, hkey ▸ h.arms a hmem, rfl⟩, hnil⟩
          (withTombstone_ne_placeholder (floorAppliedStamp_ne_zero _ ?_) _)
        rw [hmvcc]
        exact hrange

/-- **One operation keeps the invariant of the history.** -/
theorem epochStep_inv (hrange : s1.StampInRange x) (hstep : s1.epochStep x = some s2) :
    EpochInv s (ops ++ [x]) s2 := by
  cases x with
  | postUpdate key =>
    cases hstep
    exact postUpdate_epochInv h hrun key
  | delete cfg key reason =>
    cases hstep
    exact delete_epochInv h hrun cfg key reason
  | recordExpiry key replMvcc nowMs => exact recordExpiry_epochInv h hstep
  | recordEntry originIdx mvcc expiredFlag nowMs =>
    obtain ⟨⟨m, s2'⟩, hentry, rfl⟩ := Option.map_eq_some_iff.mp hstep
    cases expiredFlag with
    | true =>
      cases hentry
      exact recordEntry_expired_epochInv h originIdx mvcc nowMs
    | false => exact recordEntry_epochInv h hrun hrange hentry

end

end

/-! ## §3 The end of the epoch -/

/-- Rolling back drops the tombstone slots of keys with a tombstone arm and nothing else. -/
private theorem rollback_step (a : Armed K) (t : DbTable K V) (key : K) :
    let t' := if a.tombstone then t.rollbackUncommittedTombstone a.key else t
    t'.getMvcc key = none ∨ (t'.getMvcc key = t.getMvcc key ∧
      (isTombstoneSlot (t.getMvcc key) = true → a.key = key → a.tombstone = false)) := by
  cases ht : a.tombstone with
  | false => exact .inr ⟨rfl, fun _ _ => rfl⟩
  | true =>
    have hw := t.eraseMvcc_slotWrite a.key
    simp only [if_true, DbTable.rollbackUncommittedTombstone]
    split
    case isTrue =>
      by_cases hk : key = a.key
      · exact .inl (hk ▸ hw.lookup_self)
      · exact .inr ⟨hw.lookup_other key hk, fun _ hak => absurd hak.symm hk⟩
    case isFalse hts => exact .inr ⟨rfl, fun hkey hak => absurd (hak ▸ hkey) hts⟩

private theorem rollback_cases (armed : List (Armed K)) (t : DbTable K V) (key : K) :
    let t' :=
  armed.foldl (fun t a => if a.tombstone then t.rollbackUncommittedTombstone a.key else t) t
    t'.getMvcc key = none ∨
      (t'.getMvcc key = t.getMvcc key ∧ (isTombstoneSlot (t.getMvcc key) = true →
        ∀ a ∈ armed, a.key = key → a.tombstone = false)) := by
  induction armed generalizing t with
  | nil => exact .inr ⟨rfl, fun _ _ ha => absurd ha not_mem_nil⟩
  | cons a armed ih =>
    rw [foldl_cons]
    have hstep := rollback_step a t key
    generalize (if a.tombstone then t.rollbackUncommittedTombstone a.key else t) = t1 at hstep
    rcases ih t1 with hnone | ⟨hsame, hall⟩
    · exact .inl hnone
    · rcases hstep with hgone | ⟨hkept, hfirst⟩
      · exact .inl (hsame.trans hgone)
      · rw [hkept] at hsame hall
        exact .inr ⟨hsame, fun hts => forall_mem_cons.mpr ⟨hfirst hts, hall hts⟩⟩

theorem EpochInv.stamp_cases (h : EpochInv s ops s1) {stamp : MvccStamp}
    (hslot : s1.endOfWriteEpoch.table.getMvcc key = some stamp) :
    s.table.getMvcc key = some stamp ∨ stamp = MvccStamp.zero ∨
      (CommittedBy s ops key stamp ∧ stamp ≠ placeholder) ∨ ExpiredTo s ops key stamp := by
  rcases rollback_cases s1.stamper.armed s1.table key with hnone | ⟨hsame, hall⟩
  · cases hnone.symm.trans hslot
  · have hslot := hsame.symm.trans hslot
    have horigin := h.slot key
    rw [hslot] at horigin hall
    generalize hst : some stamp = slot at horigin
    cases horigin with
    | untouched => exact .inl rfl
    | absent => cases hst
    | empty => exact .inr (.inl (Option.some.inj hst))
    | pending ha hkey ht =>
      have := hall (by rw [hst]; simp) _ ha hkey
      rw [ht] at this
      cases this
    | committed h hne => exact .inr (.inr (.inl (Option.some.inj hst ▸ ⟨h, hne⟩)))
    | expired h => exact .inr (.inr (.inr (Option.some.inj hst ▸ h)))

/-- **What an epoch leaves in the side table**: no arm and no placeholder; and a stamp that is new
and not the empty one is that of an entry journaled in the epoch after a mutation of the key, or the
tombstone of the stamp with which the key expired. -/
theorem epoch_stamps (s s1 : DbSlice K V) (ops : List (EpochOp K)) (hquiet : s.Quiet)
    (hrange : Lib.RunAll DbSlice.epochStep DbSlice.StampInRange s ops)
    (hrun : Lib.run DbSlice.epochStep s ops = some s1) :
    s1.endOfWriteEpoch.stamper.armed = [] ∧
      (∀ key, s1.endOfWriteEpoch.table.getMvcc key ≠ some placeholder) ∧
      ∀ key stamp, s1.endOfWriteEpoch.table.getMvcc key = some stamp →
        s.table.getMvcc key ≠ some stamp → stamp ≠ MvccStamp.zero →
        CommittedBy s ops key stamp ∨ ExpiredTo s ops key stamp := by
  have hinv : EpochInv s ops s1 := by
    have hstep : ∀ es s1 e s2, Lib.run epochStep s es = some s1 → EpochInv s es s1 →
        DbSlice.StampInRange s1 e → epochStep s1 e = some s2 →
        EpochInv s (es ++ [e]) s2 :=
      fun _ _ _ _ hrun h hx hstep => epochStep_inv h hrun hx hstep
    exact Lib.inv_of_history hstep (.start hquiet) hrange hrun
  refine ⟨rfl, fun key hplace => ?_, fun key stamp hslot hnew hne => ?_⟩
  · rcases hinv.stamp_cases hplace with hold | hzero | ⟨-, hne⟩ | hexpired
    · exact hquiet.settled key hold
    · exact absurd hzero (by decide)
    · exact hne rfl
    · obtain ⟨-, -, -, -, prev, -, -, hprev, hstamp⟩ := hexpired
      have := congrArg mvcc hstamp
      exact expiryTombstoneFor_mvcc_ne_zero hprev this.symm
  · rcases hinv.stamp_cases hslot with hold | hzero | ⟨hcommitted, -⟩ | hexpired
    · exact absurd hold hnew
    · exact absurd hzero hne
    · exact .inl hcommitted
    · exact .inr hexpired

end History

/-! ## §4 Epochs on fixed inputs -/

/-- An empty slice of the node with origin hash 7 that knows one peer, with origin hash 3. -/
def epochSample : DbSlice ℕ ℕ :=
  ⟨DbTable.empty, MvccStamper.init fun idx => if idx = 0 then 7 else if idx = 1 then 3 else 0⟩

/-- The slot of a key after the epoch. -/
def slotAfter (ops : List (EpochOp ℕ)) (key : ℕ) : Option (Option MvccStamp) :=
  (Lib.run DbSlice.epochStep epochSample ops).map fun s => s.endOfWriteEpoch.table.getMvcc key

/-- A key is written by a peer and by this node, and deleted by a stale entry of the peer. -/
def sampleOps : List (EpochOp ℕ) :=
  [.postUpdate 0, .recordEntry 1 5 false 1, .postUpdate 0, .recordEntry 0 0 false 1,
    .delete ⟨true, 8⟩ 0 .explicit, .recordEntry 1 9 false 2]

theorem epoch_stamps_staleDelete :
    slotAfter sampleOps 0 = some (some ⟨0x8000000000100000, 6⟩) ∧
      (CommittedBy epochSample sampleOps 0 ⟨0x8000000000100000, 6⟩ ∨
        ExpiredTo epochSample sampleOps 0 ⟨0x8000000000100000, 6⟩) := by
  have hslot : slotAfter sampleOps 0 = some (some ⟨0x8000000000100000, 6⟩) := by decide +kernel
  obtain ⟨s1, hrun, hkey⟩ := Option.map_eq_some_iff.mp hslot
  have hquiet : epochSample.Quiet := ⟨rfl, fun _ h => nomatch h⟩
  exact ⟨hslot, (epoch_stamps epochSample s1 sampleOps hquiet (by decide +kernel) hrun).2.2 0 _ hkey
    (by decide +kernel) (by decide +kernel)⟩

/-- The operations after the last mutation of a key. -/
def afterLastMutation (key : ℕ) (ops : List (EpochOp ℕ)) : List (EpochOp ℕ) :=
  (ops.reverse.takeWhile fun x => (x.mutation key).isNone).reverse

/-- An update after the entry. -/
def updateAfterEntry : List (EpochOp ℕ) :=
  [.postUpdate 0, .recordEntry 0 0 false 1, .postUpdate 0]

/-- Two applied entries, the older one last. -/
def appliedTwice : List (EpochOp ℕ) :=
  [.postUpdate 0, .recordEntry 1 100 false 1, .postUpdate 0, .recordEntry 1 50 false 1]

/-- A delete applied with the bare tombstone bit as its stamp, by an unknown author. -/
def bareTombstone : List (EpochOp ℕ) :=
  [.postUpdate 0, .delete ⟨true, 8⟩ 0 .explicit, .recordEntry 2 kTombstoneBit false 1]

/-- **Three epochs.**  The first leaves the stamp of its entry, with no entry after the last
mutation of the key. The second floors the older stamp by the first entry's, not by the stamp from
before the epoch. The third leaves the placeholder. -/
theorem stamp_before_last_mutation :
    epochSample.table.getMvcc 0 = none ∧
      (slotAfter updateAfterEntry 0 = some (some ⟨0x100000, 7⟩) ∧
        (afterLastMutation 0 updateAfterEntry).any EpochOp.commits = false) ∧
      (slotAfter appliedTwice 0 = some (some ⟨100, 2⟩) ∧
        floorAppliedStamp MvccStamp.zero ⟨50, 3⟩ = ⟨50, 3⟩) ∧
      slotAfter bareTombstone 0 = some (some placeholder) := by
  decide +kernel

end Drakeydb.Mvcc
