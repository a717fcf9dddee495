import Drakeydb.Mvcc.DbSlice

/-!
# Shard Operations

The operations of `server/db_slice.cc`, `server/journal/journal.cc` and `server/tx_base.cc` that
move a key between the prime table, the side table and the stamper's arms: `PostUpdate`,
`PerformDeletionAtomic`, `journal::RecordEntry`, the tombstone commit of `RecordExpiryBlocking`
and the end of a write epoch.

mvcc is enabled throughout: a node without it has no side table, and none of these operations
then does anything to stamps. `recordEntry` is `RecordEntry` for the opcode `COMMAND`; no other
opcode mints or commits.
-/

namespace Drakeydb.Mvcc

open List

/-! ## §1 Operations -/

/-- The slot `PerformDeletionAtomic` writes before the delete's own stamp is known. -/
def placeholder : MvccStamp := ⟨kTombstoneBit, 0⟩

@[simp] theorem placeholder_isTombstone : placeholder.isTombstone = true := by decide

@[simp] theorem placeholder_mvcc : placeholder.mvcc = 0 := by decide

/-- Only explicit and expiry deletes earn a tombstone. -/
def earnsTombstone (cfg : TombstoneConfig) (reason : DeleteReason) : Bool :=
  cfg.enabled && (decide (reason = .explicit) || decide (reason = .expired))

namespace DbTable

variable {K V : Type*} [DecidableEq K]

/-- Insert or overwrite a value in the prime table. -/
def setPrime (t : DbTable K V) (key : K) (value : V) : DbTable K V :=
  { t with prime := t.prime.insert key value }

/-- Erase a key from the prime table. -/
def erasePrime (t : DbTable K V) (key : K) : DbTable K V :=
  { t with prime := t.prime.erase key }

@[simp] theorem getMvcc_setPrime (t : DbTable K V) (key j : K) (value : V) :
    (t.setPrime key value).getMvcc j = t.getMvcc j := rfl

@[simp] theorem getMvcc_erasePrime (t : DbTable K V) (key j : K) :
    (t.erasePrime key).getMvcc j = t.getMvcc j := rfl

variable {t : DbTable K V}

theorem Counted.setPrime (h : t.Counted) (key : K) (value : V) :
    (t.setPrime key value).Counted := ⟨h.entries, h.tombstones⟩

theorem Counted.erasePrime (h : t.Counted) (key : K) : (t.erasePrime key).Counted :=
  ⟨h.entries, h.tombstones⟩

theorem Counted.countDropped (h : t.Counted) : t.countDropped.Counted :=
  ⟨h.entries, h.tombstones⟩

/-- The `CommitFn` of `RecordEntry`. A locally minted stamp is stored as it is; an applied one is
    floored, and its tombstone bit follows the arm, not the wire. -/
def commitEntry (applied : Bool) : MvccStamper.CommitFn K (DbTable K V) :=
  fun t key st tombstone prev =>
    if applied then
      let floored := floorAppliedStamp prev st
      t.setExistingMvcc key (if tombstone then floored.asTombstone else floored.masked)
    else t.setExistingMvcc key st

/-- The `CommitFn` of `RecordExpiryBlocking`. -/
def commitExpiry : MvccStamper.CommitFn K (DbTable K V) :=
  fun t key st hasPriorStamp _ =>
    if hasPriorStamp then t.setExistingMvcc key st else some (t.eraseMvcc key)

end DbTable

namespace DbSlice

variable {K V : Type*} [DecidableEq K]

/-- `PostUpdate` with `arm_mvcc`: prepare the slot, then arm with the previous stamp. -/
def postUpdate (s : DbSlice K V) (key : K) : DbSlice K V :=
  let (t, prev) := s.table.ensureMvcc key
  ⟨t, s.stamper.arm key prev⟩

/-- `PerformDeletionAtomic` on a key of the prime table. -/
def performDeletionAtomic (cfg : TombstoneConfig) (s : DbSlice K V) (key : K)
    (reason : DeleteReason) : DbSlice K V :=
  let st := s.stamper.disarm key
  let earns := earnsTombstone cfg reason
  if earns && decide (s.table.stats.mvccTombstones < cfg.maxTombstones) then
    let prev := (s.table.getMvcc key).getD MvccStamp.zero
    ⟨(s.table.setTombstone key placeholder).erasePrime key, st.armTombstone key prev⟩
  else
    let t := if earns then s.table.countDropped else s.table
    ⟨(t.eraseMvcc key).erasePrime key, st⟩

/-- The stamper after minting, and the stamp the entry carries: the caller's author stamp, or
    `max(HopStamp(now), LocalMintFloor())` for a local write. -/
def entryStamp (st : MvccStamper K) (mvcc nowMs : UInt64) : MvccStamper K × UInt64 :=
  if mvcc = 0 then
    let st' := st.mintHop nowMs
    (st', max st'.hopStamp st'.localMintFloor)
  else (st, mvcc)

/-- `journal::RecordEntry` of a command: the stamp written to the journal and the state after the
    commit. `none` is a failed `CHECK`. An entry flagged as an expiry commits nothing. -/
def recordEntry (s : DbSlice K V) (originIdx : ℕ) (mvcc : UInt64) (expiredFlag : Bool)
    (nowMs : UInt64) : Option (UInt64 × DbSlice K V) :=
  let applied := decide (mvcc ≠ 0)
  let (st, entryMvcc) := entryStamp s.stamper mvcc nowMs
  if expiredFlag then some (entryMvcc, ⟨s.table, st⟩)
  else
    (st.commit entryMvcc originIdx (DbTable.commitEntry applied) s.table).map
      fun (st', t') => (entryMvcc, ⟨t', st'⟩)

/-- The tombstone commit of `RecordExpiryBlocking`: was there an arm, and the state after it. -/
def commitOwnTombstone (s : DbSlice K V) (key : K) : Option (Bool × DbSlice K V) :=
  (s.stamper.commitOwnTombstone key DbTable.commitExpiry s.table).map
    fun (found, st', t') => (found, ⟨t', st'⟩)

/-- The stamp `RecordExpiryBlocking` commits for a key: empty when the expired value had none. -/
def expiryStamp (s : DbSlice K V) (key : K) : MvccStamp :=
  match s.stamper.tombstoneArm? key with
  | some a => if a.prevStamp.mvcc ≠ 0 then expiryTombstoneFor a.prevStamp else MvccStamp.zero
  | none => MvccStamp.zero

/-- `RecordExpiryBlocking`: settle the key's own tombstone, then journal the flagged delete. -/
def recordExpiryBlocking (s : DbSlice K V) (key : K) (replMvcc nowMs : UInt64) :
    Option (DbSlice K V) :=
  (s.commitOwnTombstone key).bind fun (found, s') =>
    (s'.recordEntry 0 (if found then (s.expiryStamp key).mvcc else replMvcc) true nowMs).map
      Prod.snd

/-- `EndOfWriteEpoch` with `RollbackUncommittedTombstone`. -/
def endOfWriteEpoch (s : DbSlice K V) : DbSlice K V :=
  let (st, t) := s.stamper.endOfWriteEpoch DbTable.rollbackUncommittedTombstone s.table
  ⟨t, st⟩

end DbSlice

/-! ## §2 What a commit leaves behind -/

section Commit

variable {K V : Type*} [DecidableEq K]

/-- The stamp `RecordEntry` stores for one arm. -/
def committedStamp (applied : Bool) (st : MvccStamper K) (mvcc : UInt64) (originIdx : ℕ)
    (a : Armed K) : MvccStamp :=
  let stamp := st.commitStamp mvcc originIdx a
  if applied then
    let floored := floorAppliedStamp a.prevStamp stamp
    if a.tombstone then floored.asTombstone else floored.masked
  else stamp

/-- The slot of `key` after the arms' stamps were written one after another. -/
def lastStamp (f : Armed K → MvccStamp) (as : List (Armed K)) (key : K)
    (slot : Option MvccStamp) : Option MvccStamp :=
  as.foldl (fun slot a => if a.key = key then some (f a) else slot) slot

variable (f : Armed K → MvccStamp)

theorem lastStamp_cases (as : List (Armed K)) (key : K) (slot : Option MvccStamp) :
    ((∀ a ∈ as, a.key ≠ key) ∧ lastStamp f as key slot = slot) ∨
      ∃ pre a post, as = pre ++ a :: post ∧ a.key = key ∧ (∀ b ∈ post, b.key ≠ key) ∧
        lastStamp f as key slot = some (f a) := by
  induction as generalizing slot with
  | nil => exact Or.inl ⟨forall_mem_nil _, rfl⟩
  | cons a as ih =>
    have hcons : lastStamp f (a :: as) key slot =
        lastStamp f as key (if a.key = key then some (f a) else slot) := rfl
    rcases ih (if a.key = key then some (f a) else slot) with ⟨hne, heq⟩ | ⟨pre, b, post, rfl, h⟩
    · by_cases ha : a.key = key
      · rw [if_pos ha] at heq
        exact Or.inr ⟨[], a, as, rfl, ha, hne, by rw [hcons, if_pos ha, heq]⟩
      · rw [if_neg ha] at heq
        refine Or.inl ⟨?_, by rw [hcons, if_neg ha, heq]⟩
        exact forall_mem_cons.mpr ⟨ha, hne⟩
    · exact Or.inr ⟨a :: pre, b, post, rfl, h.1, h.2.1, by rw [hcons, h.2.2]⟩

omit [DecidableEq K] in
/-- Within one epoch a key's tombstone arm comes before its other arms: a delete disarms the key
    first. -/
def TombstoneFirst (as : List (Armed K)) : Prop :=
  as.Pairwise fun a b => a.key = b.key → b.tombstone = false

omit [DecidableEq K] in
/-- The last arm of a key, if it is a tombstone arm, is the only one. -/
theorem TombstoneFirst.only {pre post : List (Armed K)} {a : Armed K}
    (h : TombstoneFirst (pre ++ a :: post)) (ht : a.tombstone = true)
    (hpost : ∀ b ∈ post, b.key ≠ a.key) :
    ∀ b ∈ pre ++ a :: post, b.key = a.key → b.tombstone = true := by
  obtain ⟨-, -, hcross⟩ := pairwise_append.mp h
  intro b hb hkey
  rcases mem_append.mp hb with hb | hb
  · have := hcross b hb a mem_cons_self hkey
    rw [ht] at this
    exact absurd this (by simp)
  · rcases mem_cons.mp hb with rfl | hb
    · exact ht
    · exact absurd hkey (hpost b hb)

variable {t : DbTable K V}

/-- Writing the committed stamps arm by arm passes every `CHECK` when every armed key has a
    slot. -/
theorem foldlM_setExisting {as : List (Armed K)} (h : ∀ a ∈ as, (t.getMvcc a.key).isSome = true) :
    ∃ t', as.foldlM (fun t a => t.setExistingMvcc a.key (f a)) t = some t' ∧
      t'.prime = t.prime ∧ (t.Counted → t'.Counted) ∧
      ∀ key, t'.getMvcc key = lastStamp f as key (t.getMvcc key) := by
  induction as generalizing t with
  | nil => exact ⟨t, rfl, rfl, id, fun _ => rfl⟩
  | cons a as ih =>
    obtain ⟨t1, hset, hw⟩ := t.setExistingMvcc_slotWrite a.key (f a) (h a mem_cons_self)
    have hslots : ∀ b ∈ as, (t1.getMvcc b.key).isSome = true := by
      intro b hb
      rw [hw.getMvcc]
      split
      · rfl
      · exact h b (mem_cons_of_mem _ hb)
    obtain ⟨t', hrun, hprime, hcount, hget⟩ := ih hslots
    refine ⟨t', ?_, hprime.trans hw.prime, fun hc => hcount (hw.counted hc), ?_⟩
    · simpa only [foldlM_cons, hset, Option.bind_eq_bind, Option.bind_some] using hrun
    · intro key
      rw [hget, hw.getMvcc]
      simp [lastStamp, eq_comm (a := key)]

/-- **Commit**: every armed key ends with the stamp of its last arm, every other slot stays. -/
theorem commit_spec (applied : Bool) (st : MvccStamper K) (mvcc : UInt64) (originIdx : ℕ)
    (h : ∀ a ∈ st.armed, (t.getMvcc a.key).isSome = true) :
    ∃ t', st.commit mvcc originIdx (DbTable.commitEntry applied) t =
        some ({ st with armed := [] }, t') ∧
      t'.prime = t.prime ∧ (t.Counted → t'.Counted) ∧
      ∀ key, t'.getMvcc key =
        lastStamp (committedStamp applied st mvcc originIdx) st.armed key (t.getMvcc key) := by
  obtain ⟨t', hrun, hrest⟩ := foldlM_setExisting (committedStamp applied st mvcc originIdx) h
  refine ⟨t', ?_, hrest⟩
  have hfn : (fun (t : DbTable K V) (a : Armed K) => DbTable.commitEntry applied t a.key
      (st.commitStamp mvcc originIdx a) a.tombstone a.prevStamp) =
      fun t a => t.setExistingMvcc a.key (committedStamp applied st mvcc originIdx a) := by
    funext t a
    cases applied <;> rfl
  rw [MvccStamper.commit, hfn, hrun]
  rfl

end Commit

/-! ## §3 The mint -/

namespace MvccStamper

variable {K : Type*}

/-- The clock has room: neither the reading nor the stamps handed out have reached bit 63. -/
structure ClockInRange (st : MvccStamper K) (nowMs : UInt64) : Prop where
  hop : st.hopStamp.toNat < 2 ^ 63
  last : st.clock.last.toNat + 1 < 2 ^ 63
  now : nowMs.toNat < 2 ^ 43

instance (st : MvccStamper K) (nowMs : UInt64) : Decidable (st.ClockInRange nowMs) :=
  decidable_of_iff
    (st.hopStamp.toNat < 2 ^ 63 ∧ st.clock.last.toNat + 1 < 2 ^ 63 ∧ nowMs.toNat < 2 ^ 43)
    ⟨fun ⟨a, b, c⟩ => ⟨a, b, c⟩, fun ⟨a, b, c⟩ => ⟨a, b, c⟩⟩

theorem clock_next_lt {c : MvccClock} {nowMs : UInt64} (hlast : c.last.toNat + 1 < 2 ^ 63)
    (hnow : nowMs.toNat < 2 ^ 43) : (c.next nowMs).last.toNat < 2 ^ 63 := by
  rw [MvccClock.next_toNat (by omega) (by omega)]
  omega

theorem mintHop_lt {st : MvccStamper K} {nowMs : UInt64} (h : st.ClockInRange nowMs) :
    (st.mintHop nowMs).hopStamp.toNat < 2 ^ 63 := by
  cases hstale : st.memoStale nowMs with
  | true => simpa [mintHop, hstale] using clock_next_lt h.last h.now
  | false => simpa [mintHop, hstale] using h.hop

variable (st : MvccStamper K) (nowMs : UInt64)

@[simp] theorem mintHop_armed : (st.mintHop nowMs).armed = st.armed := by
  cases h : st.memoStale nowMs <;> simp [mintHop, h]

@[simp] theorem mintHop_originHash : (st.mintHop nowMs).originHash = st.originHash := by
  cases h : st.memoStale nowMs <;> simp [mintHop, h]

theorem armFloor_lt (a : Armed K) : (armFloor a).toNat < 2 ^ 63 := by
  unfold armFloor
  split
  · decide
  · rw [UInt64.toNat_min, kStampMask_toNat]
    omega

theorem armFloor_le_localMintFloor {a : Armed K} (ha : a ∈ st.armed) :
    (armFloor a).toNat ≤ st.localMintFloor.toNat := by
  -- the fold only grows, and it passes the arm on the way
  have hgrow : ∀ (as : List (Armed K)) (init : UInt64),
      init.toNat ≤ (as.foldl (fun f b => max f (armFloor b)) init).toNat ∧
        ∀ b ∈ as, (armFloor b).toNat ≤ (as.foldl (fun f b => max f (armFloor b)) init).toNat := by
    intro as
    induction as with
    | nil => exact fun init => ⟨le_rfl, forall_mem_nil _⟩
    | cons c as ih =>
      intro init
      obtain ⟨hinit, hmem⟩ := ih (max init (armFloor c))
      rw [UInt64.toNat_max] at hinit
      refine ⟨(le_max_left _ _).trans hinit, ?_⟩
      exact forall_mem_cons.mpr ⟨(le_max_right _ _).trans hinit, hmem⟩
  exact (hgrow st.armed 0).2 a ha

theorem localMintFloor_lt : st.localMintFloor.toNat < 2 ^ 63 := by
  have h : ∀ (as : List (Armed K)) (init : UInt64), init.toNat < 2 ^ 63 →
      (as.foldl (fun f b => max f (armFloor b)) init).toNat < 2 ^ 63 := by
    intro as
    induction as with
    | nil => exact fun init hinit => hinit
    | cons c as ih =>
      intro init hinit
      refine ih _ ?_
      rw [UInt64.toNat_max]
      exact max_lt hinit (armFloor_lt c)
  exact h st.armed 0 (by decide)

end MvccStamper

end Drakeydb.Mvcc
