import Drakeydb.Mvcc.Streaming

/-!
# Commands Are Offers

A key of a clean slice is a last-writer-wins register: it holds a value with a stamp or nothing.
A whole-value write, run for a client or applied for a peer, offers its version to the registers
of its keys and leaves every other key alone.
-/

namespace Drakeydb.Mvcc

open List Option MvccStamp MvccStamper
open DbSlice hiding endOfWriteEpoch

section Commands

variable {K V : Type*} [DecidableEq K]

/-! ## §1 What a key holds -/

/-- The value and the stamp a key holds. -/
def DbSlice.held (s : DbSlice K V) (key : K) : Option (V × MvccStamp) :=
  (s.table.prime.lookup key).bind fun value =>
    (s.table.getMvcc key).map fun stamp => (value, stamp)

omit [DecidableEq K] in
/-- Versions are ranked by their stamp. -/
def versionRank (v : V × MvccStamp) : ℕ ×ₗ ℕ := v.2.rank

/-- What a command with this stamp offers to a key: nothing, or its last value for it. -/
def versions (pairs : List (K × V)) (stamp : MvccStamp) (key : K) : List (V × MvccStamp) :=
  ((lastWrite pairs key).map fun value => (value, stamp)).toList

variable {s : DbSlice K V} {key : K}

theorem DbSlice.held_eq_none (hslot : s.table.getMvcc key = none) : s.held key = none := by
  simp [held, hslot]

variable {stamp : MvccStamp}

theorem DbSlice.Clean.held_eq_some (h : s.Clean) (hslot : s.table.getMvcc key = some stamp) :
    ∃ value, s.held key = some (value, stamp) := by
  have hprime := h.prime key
  rw [hslot, isSome_some, isSome_iff_exists] at hprime
  obtain ⟨value, hvalue⟩ := hprime
  exact ⟨value, by simp [held, hvalue, hslot]⟩

/-- A command leaves a clean slice that knows the same peers, with something to hold for each
key. -/
structure DbSlice.Leaves (s0 s' : DbSlice K V) (holds : K → Option (V × MvccStamp)) : Prop where
  clean : s'.Clean
  originHash : s'.stamper.originHash = s0.stamper.originHash
  held : ∀ key, s'.held key = holds key

variable {s0 : DbSlice K V} {w : MvccStamp} {ws : List (K × V)}

/-- Once no arm is left, the end of the epoch keeps the values and the stamps. -/
theorem leaves_endOfWriteEpoch (hc : s0.Clean) (harmed : s.stamper.armed = [])
    (horigin : s.stamper.originHash = s0.stamper.originHash)
    (hclock : s.stamper.clock.last.toNat < kStampMask.toNat)
    (hw : ws ≠ [] → w.isTombstone = false ∧ w.mvcc ≠ 0) (hslot : ∀ key, s.table.getMvcc key =
      if (lastWrite ws key).isSome then some w else s0.table.getMvcc key)
    (hprime : ∀ key, s.table.prime.lookup key = (lastWrite ws key).or (s0.table.prime.lookup key)) :
    s0.Leaves s.endOfWriteEpoch fun key =>
      ((lastWrite ws key).map fun value => (value, w)).or (s0.held key) := by
  have htable : s.endOfWriteEpoch.table = s.table := by
    simp [DbSlice.endOfWriteEpoch, endOfWriteEpoch, harmed]
  refine ⟨⟨rfl, rfl, fun key stamp hstamp => ?_, fun key => ?_, hclock⟩, horigin, fun key => ?_⟩
  · rw [htable, hslot] at hstamp
    split at hstamp
    case isTrue hsome =>
      cases hstamp
      exact hw (by rintro rfl; cases hsome)
    case isFalse => exact hc.slot key stamp hstamp
  · rw [htable, hslot, hprime]
    cases lastWrite ws key with
    | none => simpa using hc.prime key
    | some value => simp
  · rw [held, htable, hslot, hprime]
    cases lastWrite ws key with
    | none => simp [held]
    | some value => simp

/-- **The commit of a body**: it passes its `CHECK`s, and when every plain arm commits the stamp
    `w`, the written keys hold their last value with `w` and every other key what it held. -/
theorem Wrote.commit (hc : s0.Clean) (h : Wrote s0 s ws) (originIdx : ℕ) (mvcc nowMs : UInt64)
    {st : MvccStamper K} {m : UInt64}
    (hmint : entryStamp s.stamper mvcc nowMs = (st, m)) :
    ∃ s', (s.recordEntry originIdx mvcc false nowMs) = some (m, s') ∧
      ∀ w : MvccStamp, (∀ a ∈ s.stamper.armed, a.tombstone = false →
          committedStamp (decide (mvcc ≠ 0)) st m originIdx a = w) →
        w.isTombstone = false → w.mvcc ≠ 0 → st.clock.last.toNat < kStampMask.toNat →
        s0.Leaves s'.endOfWriteEpoch fun key =>
          ((lastWrite ws key).map fun value => (value, w)).or (s0.held key) := by
  have harmed : st.armed = s.stamper.armed := by
    unfold entryStamp at hmint
    split at hmint <;> cases hmint <;> simp
  have horigin : st.originHash = s0.stamper.originHash := by
    rw [show s0.stamper.originHash = s.stamper.originHash by rw [h.stamper]]
    unfold entryStamp at hmint
    split at hmint <;> cases hmint <;> simp
  obtain ⟨t', hcommit, hprime, -, hget⟩ := commit_spec (decide (mvcc ≠ 0)) st m originIdx
    (t := s.table) (by rw [harmed]; exact h.armSlot)
  refine ⟨⟨t', { st with armed := [] }⟩, ?_, ?_⟩
  · simp only [recordEntry, hmint, Bool.false_eq_true, if_false, hcommit, map_some]
  intro w hw hlive hne hclock
  -- the last arm of a written key is plain
  have hslot : ∀ key, t'.getMvcc key =
      if (lastWrite ws key).isSome then some w else s0.table.getMvcc key := by
    intro key
    rw [hget, harmed]
    rcases lastStamp_cases (committedStamp (decide (mvcc ≠ 0)) st m originIdx) s.stamper.armed key
      (s.table.getMvcc key) with ⟨hnone, heq⟩ | ⟨pre, a, post, has, hkey, hpost, heq⟩
    · have hlast : lastWrite ws key = none := by
        rw [← not_isSome_iff_eq_none]
        intro hsome
        obtain ⟨a, ha, hak, -⟩ := h.plain key hsome
        exact hnone a ha hak
      rw [heq, h.slotOther key hlast, hlast]
      simp
    · have hmem : a ∈ s.stamper.armed := by
        rw [has]
        exact mem_append_cons_self
      have hsome : (lastWrite ws key).isSome = true := hkey ▸ h.armKey a hmem
      have hplain : a.tombstone = false := by
        obtain ⟨b, hb, hbk, hbp⟩ := h.plain key hsome
        by_contra hat
        have honly := TombstoneFirst.only (by rw [← has]; exact h.first)
          (Bool.not_eq_false _ ▸ hat) (fun c hc' => hkey ▸ hpost c hc') b (by rw [← has]; exact hb)
          (hbk.trans hkey.symm)
        rw [honly] at hbp
        exact absurd hbp (by simp)
      rw [heq, hw a hmem hplain, if_pos hsome]
  exact leaves_endOfWriteEpoch hc rfl horigin hclock (fun _ => ⟨hlive, hne⟩) hslot
    (hprime ▸ h.prime)

/-! ## §2 A client's command -/

/-- The condition on a client's command: a `RESTORE REPLACE` of a live key needs room for the
    tombstone of its inner delete, or a clock that is ahead of the key's stamp anyway. -/
def LocalSound (cfg : TombstoneConfig) (s : DbSlice K V) (nowMs : UInt64) : Command K V → Prop
  | .restoreReplace key _ =>
    s.table.prime.lookup key = none ∨ cfg.hasRoom s.table = true ∨
      ∀ stamp ∈ s.table.getMvcc key, stamp.mvcc < nowMs <<< kCounterBits
  | .set .. | .mset _ => True

instance (cfg : TombstoneConfig) (s : DbSlice K V) (nowMs : UInt64) [DecidableEq V] :
    (cmd : Command K V) → Decidable (LocalSound cfg s nowMs cmd)
  | .restoreReplace key _ =>
    inferInstanceAs (Decidable (s.table.prime.lookup key = none ∨ cfg.hasRoom s.table = true ∨
      ∀ stamp ∈ s.table.getMvcc key, stamp.mvcc < nowMs <<< kCounterBits))
  | .set .. => isTrue trivial
  | .mset _ => isTrue trivial

variable {cfg : TombstoneConfig} {cmd : Command K V} {nowMs : UInt64}

theorem localBody_wrote (hc : s0.Clean) (hs : LocalSound cfg s0 nowMs cmd) :
    Wrote s0 (localBody cfg s0 cmd) cmd.pairs ∧
      (Floored s0 (localBody cfg s0 cmd) cmd.pairs ∨
        ∀ key stamp, (lastWrite cmd.pairs key).isSome = true → s0.table.getMvcc key = some stamp →
          stamp.mvcc < nowMs <<< kCounterBits) := by
  cases cmd with
  | set key value =>
    have h := (Stored.nil hc).setKey hc key value
    exact ⟨h.toWrote, Or.inl h.floored⟩
  | restoreReplace key value =>
    obtain ⟨hw, hfl⟩ := restoreKey_wrote hc cfg key value
    refine ⟨hw, ?_⟩
    rcases hs with hs | hs | hs
    · exact Or.inl (hfl (Or.inl hs))
    · exact Or.inl (hfl (Or.inr hs))
    · refine Or.inr fun j stamp hj hst => ?_
      have hjk : key = j := by
        by_contra hne
        simp [Command.pairs, lastWrite, hne] at hj
      rw [← hjk] at hst
      exact hs stamp hst
  | mset pairs =>
    obtain ⟨hsurv, hst⟩ := opMSet_stored hc none (by simp) pairs
    have hall : (opMSet none s0 pairs).2 = pairs := by
      rw [hsurv]
      simp [lwwDrop]
    rw [hall] at hst
    exact ⟨hst.toWrote, Or.inl hst.floored⟩

omit [DecidableEq K] in
/-- A hop without a memo mints past the clock's last stamp and past the wall clock. -/
theorem mintHop_ge (st : MvccStamper K) (nowMs : UInt64) (hhop : st.hopStamp = 0)
    (hclock : st.clock.last.toNat < kStampMask.toNat) :
    (nowMs <<< kCounterBits).toNat ≤ (st.mintHop nowMs).hopStamp.toNat ∧
      0 < (st.mintHop nowMs).hopStamp.toNat ∧
      (st.mintHop nowMs).clock.last = (st.mintHop nowMs).hopStamp := by
  have hstale : st.memoStale nowMs = true := by simp [memoStale, hhop]
  have hsucc : (st.clock.last + 1).toNat = st.clock.last.toNat + 1 := by
    rw [UInt64.toNat_add, UInt64.toNat_one]
    rw [kStampMask_toNat] at hclock
    exact Nat.mod_eq_of_lt (by omega)
  simp only [mintHop, hstale, if_true, MvccClock.next, and_true]
  split
  · rename_i hgt
    rw [gt_iff_lt, UInt64.lt_iff_toNat_lt] at hgt
    omega
  · rename_i hle
    rw [gt_iff_lt, UInt64.lt_iff_toNat_lt] at hle
    omega

/-- What a register keeps when it is offered a single greater version, or none. -/
theorem offerAll_versions {held : Option (V × MvccStamp)} {pairs : List (K × V)}
    (h : (lastWrite pairs key).isSome = true → ∀ v ∈ held, versionRank v < stamp.rank) :
    Lib.offerAll versionRank held (versions pairs stamp key) =
      ((lastWrite pairs key).map fun value => (value, stamp)).or held := by
  cases hlast : lastWrite pairs key with
  | none => simp [versions, hlast]
  | some value =>
    cases held with
    | none => simp [versions, hlast]
    | some v =>
      have hlt := h (by simp [hlast]) v rfl
      simp only [versions, hlast, map_some, toList_some, Lib.offerAll_cons,
        Lib.offerAll_nil, or_some]
      exact Lib.offer_some_of_lt versionRank hlt

/-- **A client's command** runs, mints above every stamp its keys hold, and is an offer of its
    version to each of them. -/
theorem runLocal_held (hc : s0.Clean) (hs : LocalSound cfg s0 nowMs cmd) :
    ∃ m s', runLocal cfg s0 cmd nowMs = some (m, s') ∧
      (m < kStampMask → m ≠ 0 ∧ (s0.Leaves s' fun key => Lib.offerAll versionRank (s0.held key)
          (versions cmd.pairs ⟨m, s0.stamper.originHash 0⟩ key)) ∧
        ∀ key, (lastWrite cmd.pairs key).isSome = true → ∀ v ∈ s0.held key,
          versionRank v < (⟨m, s0.stamper.originHash 0⟩ : MvccStamp).rank) := by
  obtain ⟨hwrote, hfloor⟩ := localBody_wrote hc hs
  unfold runLocal
  generalize localBody cfg s0 cmd = body at hwrote hfloor ⊢
  obtain ⟨s', hrec, hcommit⟩ := hwrote.commit hc 0 0 nowMs rfl
  refine ⟨_, s'.endOfWriteEpoch, by rw [hrec]; rfl, fun hm => ?_⟩
  have hst := hwrote.stamper
  obtain ⟨hwall, hpos, hlast⟩ := mintHop_ge body.stamper nowMs
    (by rw [hst]; exact hc.hop) (by rw [hst]; exact hc.clock)
  generalize hmdef : max (body.stamper.mintHop nowMs).hopStamp
    (body.stamper.mintHop nowMs).localMintFloor = m at hm hcommit ⊢
  have hmax : m.toNat = max (body.stamper.mintHop nowMs).hopStamp.toNat
      (body.stamper.mintHop nowMs).localMintFloor.toNat := by
    rw [← hmdef, UInt64.toNat_max]
  have hmlt : m.toNat < 2 ^ 63 - 1 := by
    exact UInt64.lt_iff_toNat_lt.mp hm
  have horigin : body.stamper.originHash = s0.stamper.originHash := by rw [hst]
  generalize hw : (⟨m, s0.stamper.originHash 0⟩ : MvccStamp) = w
  have hbound := toNat_lt_of_lt_kStampMask hm
  have hwlive : w.isTombstone = false := hw ▸ mk_isTombstone_of_lt hbound _
  have hwmvcc : w.mvcc = m := hw ▸ mk_mvcc_of_lt hbound _
  have hmpos : 0 < m.toNat := by omega
  have hmne : m ≠ 0 := fun h0 => by simp [h0] at hmpos
  have hwne : w.mvcc ≠ 0 := hwmvcc ▸ hmne
  -- the mint clears every stamp the written keys held
  have hgreater : ∀ key, (lastWrite cmd.pairs key).isSome = true → ∀ v ∈ s0.held key,
      versionRank v < w.rank := by
    intro key hsome v hv
    obtain ⟨value, -, hv⟩ := bind_eq_some_iff.mp hv
    obtain ⟨stamp, hstamp, rfl⟩ := map_eq_some_iff.mp hv
    have hne := (hc.slot key stamp hstamp).2
    have hlt := stamp.mvcc_toNat_lt
    refine (rank_lt_iff _ _).mpr (Or.inl ?_)
    change stamp.mvcc.toNat < w.mvcc.toNat
    rw [hwmvcc]
    rcases hfloor with hfl | hclk
    · obtain ⟨a, ha, hprev⟩ := hfl key stamp hsome hstamp
      have hle := armFloor_le_localMintFloor
        (body.stamper.mintHop nowMs) (by simpa using ha)
      rw [armFloor, hprev, if_neg hne, UInt64.toNat_min, kStampMask_toNat,
        UInt64.toNat_add, UInt64.toNat_one, Nat.mod_eq_of_lt (by omega)] at hle
      omega
    · have hlt' := UInt64.lt_iff_toNat_lt.mp (hclk key stamp hsome hstamp)
      omega
  have hplain : ∀ a ∈ body.stamper.armed, a.tombstone = false →
      committedStamp (decide ((0 : UInt64) ≠ 0)) (body.stamper.mintHop nowMs) m 0 a = w := by
    intro a _ hp
    simp [committedStamp, commitStamp, hp, horigin, hw]
  have hleaves := hcommit w hplain hwlive hwne (by rw [hlast, kStampMask_toNat]; omega)
  refine ⟨hmne, ?_, hgreater⟩
  simpa only [offerAll_versions (hgreater _)] using hleaves

/-! ## §3 An applied command -/

variable {originIdx : ℕ} {mvcc : UInt64}

/-- A guarded body commits the author's stamp as it is: every key it wrote held an older one. -/
theorem Wrote.commit_applied (hc : s0.Clean) (h : Wrote s0 s ws) (nowMs : UInt64) (hne : mvcc ≠ 0)
    (hlt : mvcc < kStampMask)
    (hacc : ∀ key, (lastWrite ws key).isSome = true →
      mergeAccepts (s0.table.getMvcc key) ⟨mvcc, s0.stamper.originHash originIdx⟩ = true) :
    ∃ s', (s.recordEntry originIdx mvcc false nowMs).map (fun r => r.2.endOfWriteEpoch) = some s' ∧
      s0.Leaves s' fun key => ((lastWrite ws key).map fun value =>
        (value, (⟨mvcc, s0.stamper.originHash originIdx⟩ : MvccStamp))).or (s0.held key) := by
  have hentry : entryStamp s.stamper mvcc nowMs = (s.stamper, mvcc) := by
    simp [entryStamp, hne]
  have horigin : s.stamper.originHash = s0.stamper.originHash := by rw [h.stamper]
  obtain ⟨s', hrec, hcommit⟩ := h.commit hc originIdx mvcc nowMs hentry
  have hbound := toNat_lt_of_lt_kStampMask hlt
  generalize hw : (⟨mvcc, s0.stamper.originHash originIdx⟩ : MvccStamp) = w at hacc ⊢
  have hwlive : w.isTombstone = false := hw ▸ mk_isTombstone_of_lt hbound _
  have hwne : w.mvcc ≠ 0 := by
    rw [← hw, mk_mvcc_of_lt hbound]
    exact hne
  have hplain : ∀ a ∈ s.stamper.armed, a.tombstone = false →
      committedStamp (decide (mvcc ≠ 0)) s.stamper mvcc originIdx a = w := by
    intro a ha hp
    have hfloor : floorAppliedStamp a.prevStamp w = w := by
      rcases h.prev a ha hp with hzero | hslot
      · exact floorAppliedStamp_of_mvcc_eq_zero w hzero
      · have := hacc a.key (h.armKey a ha)
        rw [hslot] at this
        exact floorAppliedStamp_of_lt this
    have hstamp : s.stamper.commitStamp mvcc originIdx a = w := by
      simp [commitStamp, hp, horigin, hw]
    simp [committedStamp, hne, hstamp, hfloor, hp, masked_eq_self hwlive]
  exact ⟨s'.endOfWriteEpoch, by rw [hrec]; rfl,
    hcommit w hplain hwlive hwne (by rw [h.stamper]; exact hc.clock)⟩

/-- A register that is offered a version takes it exactly when the guard lets it pass. -/
theorem offerAll_versions_guarded (hc : s0.Clean) (pairs : List (K × V)) (w : MvccStamp) (key : K) :
    Lib.offerAll versionRank (s0.held key) (versions pairs w key) =
      ((if mergeAccepts (s0.table.getMvcc key) w then lastWrite pairs key else none).map
        fun value => (value, w)).or (s0.held key) := by
  cases hslot : s0.table.getMvcc key with
  | none =>
    rw [held_eq_none hslot]
    rw [offerAll_versions (by simp)]
    simp [mergeAccepts]
  | some st =>
    obtain ⟨value, hheld⟩ := hc.held_eq_some hslot
    rw [hheld]
    cases hacc : mergeAccepts (some st) w with
    | true =>
      rw [offerAll_versions ?_, if_pos rfl]
      intro _ v hv
      cases hv
      exact (lt_iff_rank st w).mp hacc
    | false =>
      have hle : w.rank ≤ st.rank := by
        rw [← not_lt, ← lt_iff_rank]
        exact Bool.eq_false_iff.mp hacc
      cases hlast : lastWrite pairs key with
      | none => simp [versions, hlast]
      | some value' =>
        simp only [versions, hlast, map_some, toList_some, Lib.offerAll_cons, Lib.offerAll_nil]
        exact Lib.offer_some_of_le versionRank hle

theorem lastWrite_filter (ws : List (K × V)) (q : K → Bool) (key : K) :
    lastWrite (ws.filter fun p => q p.1) key = if q key then lastWrite ws key else none := by
  induction ws using reverseRecOn with
  | nil => simp [lastWrite]
  | append_singleton ws p ih =>
    rw [filter_append, lastWrite_append]
    cases hq : q p.1 with
    | true =>
      have hkeep : [p].filter (fun p => q p.1) = [p] := by simp [hq]
      rw [hkeep, lastWrite_append, ih]
      by_cases hp : p.1 = key
      · rw [← hp, hq]
        simp
      · simp [hp]
    | false =>
      have hskip : [p].filter (fun p => q p.1) = [] := by simp [hq]
      rw [hskip, append_nil, ih]
      by_cases hp : p.1 = key
      · rw [← hp, hq]
        simp
      · simp [hp]

theorem Wrote.armed_eq_nil (h : Wrote s0 s []) : s.stamper.armed = [] :=
  eq_nil_iff_forall_not_mem.mpr fun a ha => by cases h.armKey a ha

/-- **An applied command** runs and is an offer of its author's version to each of its keys. -/
theorem runApplied_held (cfg : TombstoneConfig) (cmd : Command K V) (nowMs : UInt64) (hc : s0.Clean)
    (hne : mvcc ≠ 0) (hlt : mvcc < kStampMask) (hhash : s0.stamper.originHash originIdx ≠ 0) :
    ∃ s', runApplied cfg s0 cmd mvcc originIdx nowMs = some s' ∧
      s0.Leaves s' fun key => Lib.offerAll versionRank (s0.held key)
        (versions cmd.pairs ⟨mvcc, s0.stamper.originHash originIdx⟩ key) := by
  have hincoming : incomingStamp s0.stamper mvcc originIdx =
      some ⟨mvcc, s0.stamper.originHash originIdx⟩ := by
    simp [incomingStamp, hne, hhash]
  generalize hw : (⟨mvcc, s0.stamper.originHash originIdx⟩ : MvccStamp) = w at hincoming ⊢
  -- it is enough to know the body and the pairs that pass the guard
  have hfinish : ∀ (body : DbSlice K V) (ws : List (K × V)), Wrote s0 body ws →
      ws = cmd.pairs.filter (fun p => mergeAccepts (s0.table.getMvcc p.1) w) →
      ∃ s', (if ws.isEmpty then some body.endOfWriteEpoch else
          (body.recordEntry originIdx mvcc false nowMs).map fun r => r.2.endOfWriteEpoch) =
        some s' ∧ s0.Leaves s' fun key =>
          Lib.offerAll versionRank (s0.held key) (versions cmd.pairs w key) := by
    intro body ws hbody hws
    have hlast : ∀ key, lastWrite ws key =
        if mergeAccepts (s0.table.getMvcc key) w then lastWrite cmd.pairs key else none := by
      intro key
      rw [hws]
      exact lastWrite_filter cmd.pairs (fun key => mergeAccepts (s0.table.getMvcc key) w) key
    simp only [offerAll_versions_guarded hc, ← hlast]
    cases ws with
    | nil =>
      exact ⟨_, rfl, leaves_endOfWriteEpoch hc hbody.armed_eq_nil (by rw [hbody.stamper])
        (by rw [hbody.stamper]; exact hc.clock) (absurd rfl)
          (fun key => hbody.slotOther key rfl) hbody.prime⟩
    | cons p ps =>
      have hacc : ∀ key, (lastWrite (p :: ps) key).isSome = true →
          mergeAccepts (s0.table.getMvcc key) ⟨mvcc, s0.stamper.originHash originIdx⟩ = true := by
        intro key hsome
        rw [hw]
        by_contra hno
        rw [hlast, if_neg hno] at hsome
        exact absurd hsome (by simp)
      have hrun := hbody.commit_applied hc nowMs hne hlt hacc
      rw [hw] at hrun
      exact hrun
  have hdrop : ∀ key, lwwDrop (some w) s0 key = !mergeAccepts (s0.table.getMvcc key) w :=
    fun _ => rfl
  -- a single key is dropped whole or written whole
  have hsingle : ∀ (key : K) (value : V) (body : DbSlice K V), cmd.pairs = [(key, value)] →
      Wrote s0 body [(key, value)] →
      ∃ s', (if lwwDrop (some w) s0 key then some s0.endOfWriteEpoch else
          (body.recordEntry originIdx mvcc false nowMs).map fun r => r.2.endOfWriteEpoch) =
        some s' ∧ s0.Leaves s' fun key =>
          Lib.offerAll versionRank (s0.held key) (versions cmd.pairs w key) := by
    intro key value body hpairs hbody
    cases hacc : mergeAccepts (s0.table.getMvcc key) w with
    | true => simpa [hdrop, hacc] using hfinish body _ hbody (by simp [hpairs, hacc])
    | false =>
      simpa [hdrop, hacc] using hfinish s0 [] (Stored.nil hc).toWrote (by simp [hpairs, hacc])
  cases hcmd : cmd with
  | set key value =>
    rw [hcmd] at hsingle
    simpa only [runApplied, hincoming] using
      hsingle key value _ rfl ((Stored.nil hc).setKey hc key value).toWrote
  | restoreReplace key value =>
    rw [hcmd] at hsingle
    simpa only [runApplied, hincoming] using
      hsingle key value _ rfl (restoreKey_wrote hc cfg key value).1
  | mset pairs =>
    rw [hcmd] at hfinish
    have hwne : w.mvcc ≠ 0 := by
      rw [← hw, mk_mvcc_of_lt (toNat_lt_of_lt_kStampMask hlt)]
      exact hne
    obtain ⟨hsurv, hst⟩ := opMSet_stored hc (some w) (by simpa using hwne) pairs
    have hws : (opMSet (some w) s0 pairs).2 =
        pairs.filter (fun p => mergeAccepts (s0.table.getMvcc p.1) w) := by
      simp [hsurv, hdrop]
    simpa only [runApplied, hincoming] using hfinish _ _ hst.toWrote hws

end Commands

end Drakeydb.Mvcc
