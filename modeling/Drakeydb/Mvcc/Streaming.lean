import Drakeydb.Mvcc.Shard

/-!
# Streaming Whole-Value Writes

What one node does with a guarded whole-value write: `SET`, `RESTORE REPLACE` and `MSET`, run for
a client or applied for a peer. A client's write arms its keys, mints a stamp above what they
hold and commits it; an applied write carries its author's stamp and is dropped, key by key, when
the stored stamp is not older (`Transaction::ShouldDropForLww`, `OpMSet`).

`RESTORE REPLACE` deletes the old value before it stores the new one, so the stamp the key had
survives only in the delete's tombstone arm.
-/

namespace Drakeydb.Mvcc

open List MvccStamp MvccStamper DbSlice Bool

/-! ## §1 Commands -/

/-- The whole-value writes under the streaming guard. -/
inductive Command (K V : Type*) where
  | set (key : K) (value : V)
  | restoreReplace (key : K) (value : V)
  | mset (pairs : List (K × V))
  deriving DecidableEq

/-- The pairs a command writes, in order. -/
def Command.pairs {K V : Type*} : Command K V → List (K × V)
  | .set key value => [(key, value)]
  | .restoreReplace key value => [(key, value)]
  | .mset pairs => pairs

section Commands

variable {K V : Type*} [DecidableEq K]

/-- `SetCmd::Set` without conditions: store the value, then `PostUpdate`. -/
def DbSlice.setKey (s : DbSlice K V) (key : K) (value : V) : DbSlice K V :=
  DbSlice.postUpdate ⟨s.table.setPrime key value, s.stamper⟩ key

/-- `OpRestore` with `REPLACE`: `DelMutable` of the old value, then the new one. -/
def DbSlice.restoreKey (cfg : TombstoneConfig) (s : DbSlice K V) (key : K) (value : V) :
    DbSlice K V :=
  let s' := if (s.table.prime.lookup key).isSome then
      (s.postUpdate key).performDeletionAtomic cfg key .explicit
    else s
  s'.setKey key value

/-- `IncomingStamp`: the author's stamp, if it carries one and its origin is known. -/
def incomingStamp (st : MvccStamper K) (mvcc : UInt64) (originIdx : ℕ) : Option MvccStamp :=
  if mvcc = 0 ∨ st.originHash originIdx = 0 then none else some ⟨mvcc, st.originHash originIdx⟩

/-- Does the guard drop a write to this key?  Without an incoming stamp it fails open. -/
def lwwDrop (incoming : Option MvccStamp) (s : DbSlice K V) (key : K) : Bool :=
  match incoming with
  | none => false
  | some stamp => !mergeAccepts (s.table.getMvcc key) stamp

/-- `OpMSet`: every pair that is not dropped is stored; the survivors come back. -/
def opMSet (incoming : Option MvccStamp) (s : DbSlice K V) (pairs : List (K × V)) :
    DbSlice K V × List (K × V) :=
  pairs.foldl (fun r p =>
    if lwwDrop incoming r.1 p.1 then r else (r.1.setKey p.1 p.2, r.2 ++ [p])) (s, [])

/-- The body of a command that no guard watches. -/
def localBody (cfg : TombstoneConfig) (s : DbSlice K V) : Command K V → DbSlice K V
  | .set key value => s.setKey key value
  | .restoreReplace key value => s.restoreKey cfg key value
  | .mset pairs => (opMSet none s pairs).1

/-- A client's command: its body, the journal entry, the end of the epoch. Returns the stamp the
    entry carries. -/
def runLocal (cfg : TombstoneConfig) (s : DbSlice K V) (cmd : Command K V) (nowMs : UInt64) :
    Option (UInt64 × DbSlice K V) :=
  ((localBody cfg s cmd).recordEntry 0 0 false nowMs).map fun r => (r.1, r.2.endOfWriteEpoch)

/-- A peer's command with its author's stamp, under the guard. A command that is dropped whole
    runs nothing and journals nothing. -/
def runApplied (cfg : TombstoneConfig) (s : DbSlice K V) (cmd : Command K V) (mvcc : UInt64)
    (originIdx : ℕ) (nowMs : UInt64) : Option (DbSlice K V) :=
  let incoming := incomingStamp s.stamper mvcc originIdx
  let journal := fun body : DbSlice K V =>
    (body.recordEntry originIdx mvcc false nowMs).map fun r => r.2.endOfWriteEpoch
  match cmd with
  | .set key value =>
    if lwwDrop incoming s key then some s.endOfWriteEpoch else journal (s.setKey key value)
  | .restoreReplace key value =>
    if lwwDrop incoming s key then some s.endOfWriteEpoch
    else journal (s.restoreKey cfg key value)
  | .mset pairs =>
    let r := opMSet incoming s pairs
    if r.2.isEmpty then some r.1.endOfWriteEpoch else journal r.1

/-! ## §2 What a command's body leaves behind -/

/-- The value the last pair on a key writes. -/
def lastWrite (ws : List (K × V)) (key : K) : Option V :=
  ws.foldl (fun o p => if p.1 = key then some p.2 else o) none

variable (ws : List (K × V))

theorem lastWrite_append (p : K × V) (key : K) :
    lastWrite (ws ++ [p]) key = if p.1 = key then some p.2 else lastWrite ws key := by
  simp [lastWrite, foldl_append]

theorem lastWrite_isSome_iff (key : K) : (lastWrite ws key).isSome = true ↔
    ∃ p ∈ ws, p.1 = key := by
  induction ws using reverseRecOn with
  | nil => simp [lastWrite]
  | append_singleton ws p ih =>
    rw [lastWrite_append]
    by_cases hp : p.1 = key
    · simp [hp]
    · simp [hp, ih]

/-- A slice between commands: nothing armed, no hop memo, every slot a live stamp of a key that is
    there. -/
structure DbSlice.Clean (s : DbSlice K V) : Prop where
  armed : s.stamper.armed = []
  hop : s.stamper.hopStamp = 0
  slot : ∀ key stamp, s.table.getMvcc key = some stamp →
    stamp.isTombstone = false ∧ stamp.mvcc ≠ 0
  prime : ∀ key, (s.table.prime.lookup key).isSome = (s.table.getMvcc key).isSome
  clock : s.stamper.clock.last.toNat < kStampMask.toNat

/-- **Wrote**: starting from the clean slice `s0`, the body stored `ws` and armed their keys.
    Every written key has a plain arm, whose previous stamp is the key's own or none at all. -/
structure Wrote (s0 s : DbSlice K V) (ws : List (K × V)) : Prop where
  stamper : s.stamper = { s0.stamper with armed := s.stamper.armed }
  prime : ∀ key, s.table.prime.lookup key = (lastWrite ws key).or (s0.table.prime.lookup key)
  slotOther : ∀ key, lastWrite ws key = none → s.table.getMvcc key = s0.table.getMvcc key
  armSlot : ∀ a ∈ s.stamper.armed, (s.table.getMvcc a.key).isSome = true
  armKey : ∀ a ∈ s.stamper.armed, (lastWrite ws a.key).isSome = true
  plain : ∀ key, (lastWrite ws key).isSome = true →
    ∃ a ∈ s.stamper.armed, a.key = key ∧ a.tombstone = false
  first : TombstoneFirst s.stamper.armed
  prev : ∀ a ∈ s.stamper.armed, a.tombstone = false →
    a.prevStamp.mvcc = 0 ∨ s0.table.getMvcc a.key = some a.prevStamp

/-- Every written key's old stamp is the previous stamp of some arm, so the mint clears it. -/
def Floored (s0 s : DbSlice K V) (ws : List (K × V)) : Prop :=
  ∀ key stamp, (lastWrite ws key).isSome = true → s0.table.getMvcc key = some stamp →
    ∃ a ∈ s.stamper.armed, a.prevStamp = stamp

/-- A body made of plain stores: the slots keep their stamps until the commit. -/
structure Stored (s0 s : DbSlice K V) (ws : List (K × V)) : Prop extends Wrote s0 s ws where
  slots : ∀ key, s.table.getMvcc key = s0.table.getMvcc key ∨
    (s0.table.getMvcc key = none ∧ s.table.getMvcc key = some MvccStamp.zero)
  floored : Floored s0 s ws

variable {s0 : DbSlice K V}

theorem Stored.nil (h : s0.Clean) : Stored s0 s0 [] where
  stamper := rfl
  prime _ := rfl
  slotOther _ _ := rfl
  armSlot a ha := by simp [h.armed] at ha
  armKey a ha := by simp [h.armed] at ha
  plain _ hk := by simp [lastWrite] at hk
  first := by rw [h.armed]; exact List.Pairwise.nil
  prev a ha := by simp [h.armed] at ha
  slots _ := Or.inl rfl
  floored _ _ hk := by simp [lastWrite] at hk

variable {s : DbSlice K V}

theorem lookup_insert_ite {β : Type*} (m : Finmap fun _ : K => β) (key j : K) (value : β) :
    (m.insert key value).lookup j = if j = key then some value else m.lookup j := by
  split
  case isTrue hj => rw [hj, Finmap.lookup_insert]
  case isFalse hj => exact Finmap.lookup_insert_of_ne _ hj

variable {key : K}

/-- What `PostUpdate` does to a key whose slot is live or missing: the slot exists afterwards, the
    arm remembers what it held. -/
theorem postUpdate_of_live (h : isTombstoneSlot (s.table.getMvcc key) = false) :
    (s.postUpdate key).stamper.armed =
        s.stamper.armed ++ [⟨key, false, (s.table.getMvcc key).getD MvccStamp.zero⟩] ∧
      (s.postUpdate key).table.prime = s.table.prime ∧
      ∀ j, (s.postUpdate key).table.getMvcc j =
        if j = key then some ((s.table.getMvcc key).getD MvccStamp.zero)
        else s.table.getMvcc j := by
  cases hslot : s.table.getMvcc key with
  | none =>
    refine ⟨?_, ?_, ?_⟩
    · simp [postUpdate, DbTable.ensureMvcc, hslot, arm, effectivePrev]
    · simp [postUpdate, DbTable.ensureMvcc, hslot]
    · intro j
      simp only [postUpdate, DbTable.ensureMvcc, hslot]
      exact lookup_insert_ite _ key j zero
  | some st =>
    rw [hslot, isTombstoneSlot_some] at h
    refine ⟨?_, ?_, ?_⟩
    · simp [postUpdate, DbTable.ensureMvcc, hslot, h, arm, effectivePrev]
    · simp [postUpdate, DbTable.ensureMvcc, hslot, h]
    · intro j
      simp only [postUpdate, DbTable.ensureMvcc, hslot, h, false_eq_true, if_false]
      split
      · rename_i hj
        rw [hj, hslot]
        rfl
      · rfl

theorem setKey_of_live (key : K) (value : V) (h : isTombstoneSlot (s.table.getMvcc key) = false) :
    (s.setKey key value).stamper.armed =
        s.stamper.armed ++ [⟨key, false, (s.table.getMvcc key).getD MvccStamp.zero⟩] ∧
      (s.setKey key value).table.prime = s.table.prime.insert key value ∧
      ∀ j, (s.setKey key value).table.getMvcc j =
        if j = key then some ((s.table.getMvcc key).getD MvccStamp.zero)
        else s.table.getMvcc j :=
  postUpdate_of_live (s := ⟨s.table.setPrime key value, s.stamper⟩) h

theorem setKey_stamper (s : DbSlice K V) (key : K) (value : V) : (s.setKey key value).stamper =
    { s.stamper with armed := (s.setKey key value).stamper.armed } := rfl

theorem Stored.setKey {ws : List (K × V)} (hc : s0.Clean) (h : Stored s0 s ws) (key : K)
    (value : V) :
    Stored s0 (s.setKey key value) (ws ++ [(key, value)]) := by
  -- up to the commit a slot is the clean slice's or a fresh zero
  have hslot : ∀ j, isTombstoneSlot (s.table.getMvcc j) = false := by
    intro j
    rcases h.slots j with hj | ⟨-, hj⟩
    · rw [hj]
      cases hst : s0.table.getMvcc j with
      | none => rfl
      | some st => exact (hc.slot j st hst).1
    · rw [hj]
      exact zero_isTombstone
  obtain ⟨harmed', hprime, hget'⟩ := setKey_of_live key value (hslot key)
  have hprev : (s.table.getMvcc key).getD zero = (s0.table.getMvcc key).getD zero := by
    rcases h.slots key with hk | ⟨hk0, hk⟩
    · rw [hk]
    · rw [hk, hk0]
      rfl
  rw [hprev] at harmed' hget'
  refine ⟨⟨?_, ?_, ?_, ?_, ?_, ?_, ?_, ?_⟩, ?_, ?_⟩
  · rw [setKey_stamper, h.stamper]
  · intro j
    rw [hprime, lookup_insert_ite, lastWrite_append, h.prime]
    by_cases hj : j = key <;> simp [hj, eq_comm (a := key)]
  · intro j hj
    rw [lastWrite_append] at hj
    have hne : key ≠ j := fun heq => by simp [heq] at hj
    rw [if_neg hne] at hj
    rw [hget', if_neg (Ne.symm hne), h.slotOther j hj]
  · refine forall_mem_append.mpr ⟨fun a ha => ?_, forall_mem_singleton.mpr (by simp [hget'])⟩
    rw [hget']
    split
    · rfl
    · exact h.armSlot a ha
  · simp only [harmed', lastWrite_append]
    refine forall_mem_append.mpr ⟨fun a ha => ?_, forall_mem_singleton.mpr (by simp)⟩
    split
    · rfl
    · exact h.armKey a ha
  · intro j hj
    rw [lastWrite_append] at hj
    by_cases hk : key = j
    · exact ⟨_, mem_append_cons_self, hk, rfl⟩
    · rw [if_neg hk] at hj
      obtain ⟨a, ha, hak⟩ := h.plain j hj
      exact ⟨a, mem_append_left _ ha, hak⟩
  · rw [harmed']
    exact pairwise_append.mpr ⟨h.first, pairwise_singleton _ _, fun a _ b hb _ =>
      by rw [mem_singleton.mp hb]⟩
  · rw [harmed']
    refine forall_mem_append.mpr ⟨h.prev, forall_mem_singleton.mpr fun _ => ?_⟩
    cases s0.table.getMvcc key with
    | none => exact Or.inl zero_mvcc
    | some st => exact Or.inr rfl
  · intro j
    rw [hget']
    split
    case isTrue hj =>
      rw [hj]
      cases s0.table.getMvcc key <;> simp
    case isFalse => exact h.slots j
  · intro j st hj hst
    rw [lastWrite_append] at hj
    rw [harmed']
    by_cases hk : key = j
    · exact ⟨_, mem_append_cons_self, by simp [hk, hst]⟩
    · rw [if_neg hk] at hj
      obtain ⟨a, ha, hak⟩ := h.floored j st hj hst
      exact ⟨a, mem_append_left _ ha, hak⟩

theorem Stored.mergeAccepts_eq {ws : List (K × V)} (h : Stored s0 s ws)
    {stamp : MvccStamp} (hne : stamp.mvcc ≠ 0) (key : K) :
    mergeAccepts (s.table.getMvcc key) stamp = mergeAccepts (s0.table.getMvcc key) stamp := by
  rcases h.slots key with hk | ⟨hk0, hk⟩
  · rw [hk]
  · rw [hk, hk0]
    have hpos : (0 : UInt64) < stamp.mvcc := by
      exact Nat.pos_of_ne_zero fun h0 => hne (UInt64.toNat_inj.mp (by simpa using h0))
    simp [mergeAccepts, lt, hpos]

/-- `OpMSet` stores the pairs whose keys the clean slice's slots accept. -/
theorem opMSet_stored (hc : s0.Clean) (incoming : Option MvccStamp)
    (hne : ∀ stamp ∈ incoming, stamp.mvcc ≠ 0) (pairs : List (K × V)) :
    (opMSet incoming s0 pairs).2 = pairs.filter (fun p => !lwwDrop incoming s0 p.1) ∧
      Stored s0 (opMSet incoming s0 pairs).1 (opMSet incoming s0 pairs).2 := by
  induction pairs using reverseRecOn with
  | nil => exact ⟨rfl, Stored.nil hc⟩
  | append_singleton pairs p ih =>
    obtain ⟨hsurv, hst⟩ := ih
    have hdrop : lwwDrop incoming (opMSet incoming s0 pairs).1 p.1 = lwwDrop incoming s0 p.1 := by
      cases incoming with
      | none => rfl
      | some stamp => simp [lwwDrop, hst.mergeAccepts_eq (hne stamp rfl)]
    have hstep : opMSet incoming s0 (pairs ++ [p]) =
        if lwwDrop incoming s0 p.1 then opMSet incoming s0 pairs
        else ((opMSet incoming s0 pairs).1.setKey p.1 p.2,
          (opMSet incoming s0 pairs).2 ++ [p]) := by
      rw [← hdrop, opMSet, foldl_append]
      rfl
    cases hd : lwwDrop incoming s0 p.1 with
    | true =>
      rw [hstep, hd, if_pos rfl]
      exact ⟨by simp [filter_append, hsurv, hd], hst⟩
    | false =>
      rw [hstep, hd, if_neg Bool.false_ne_true]
      exact ⟨by simp [filter_append, hsurv, hd], hst.setKey hc p.1 p.2⟩

/-! ## §3 Restoring over a live key -/

/-- Is there room for one more tombstone? -/
def TombstoneConfig.hasRoom (cfg : TombstoneConfig) (t : DbTable K V) : Bool :=
  cfg.enabled && decide (t.stats.mvccTombstones < cfg.maxTombstones)

/-- An explicit delete leaves a placeholder with its tombstone arm, or nothing at all. -/
theorem performDeletionAtomic_explicit_cases (cfg : TombstoneConfig) (s : DbSlice K V) (key : K) :
    let s' := s.performDeletionAtomic cfg key .explicit
    s'.table.prime = s.table.prime.erase key ∧
      if cfg.hasRoom s.table then
        s'.stamper = (s.stamper.disarm key).armTombstone key
            ((s.table.getMvcc key).getD zero) ∧
          ∀ j, s'.table.getMvcc j = if j = key then some placeholder else s.table.getMvcc j
      else s'.stamper = s.stamper.disarm key ∧
        ∀ j, s'.table.getMvcc j = if j = key then none else s.table.getMvcc j := by
  have hearns : earnsTombstone cfg .explicit = cfg.enabled := by simp [earnsTombstone]
  intro s'
  cases hroom : cfg.hasRoom s.table with
  | true =>
    have hw := s.table.setTombstone_slotWrite key placeholder_isTombstone
    have hs' : s' = ⟨(s.table.setTombstone key placeholder).erasePrime key,
        (s.stamper.disarm key).armTombstone key ((s.table.getMvcc key).getD zero)⟩ := by
      unfold TombstoneConfig.hasRoom at hroom
      simp only [s', performDeletionAtomic, hearns, hroom, if_true]
    rw [hs']
    exact ⟨congrArg (Finmap.erase key) hw.prime, rfl, hw.getMvcc⟩
  | false =>
    unfold TombstoneConfig.hasRoom at hroom
    cases hen : cfg.enabled with
    | true =>
      have hw := s.table.countDropped.eraseMvcc_slotWrite key
      have hs' :
        s' = ⟨(s.table.countDropped.eraseMvcc key).erasePrime key, s.stamper.disarm key⟩ := by
        simp only [s', performDeletionAtomic, hearns, hroom, false_eq_true, if_false]
        simp only [hen, if_true]
      rw [hs']
      exact ⟨congrArg (Finmap.erase key) hw.prime, rfl, hw.getMvcc⟩
    | false =>
      have hw := s.table.eraseMvcc_slotWrite key
      have hs' : s' = ⟨(s.table.eraseMvcc key).erasePrime key, s.stamper.disarm key⟩ := by
        simp only [s', performDeletionAtomic, hearns, hroom, false_eq_true, if_false]
        simp only [hen, false_eq_true, if_false]
      rw [hs']
      exact ⟨congrArg (Finmap.erase key) hw.prime, rfl, hw.getMvcc⟩

/-- Re-creating a key over the placeholder of its own pending delete: the arm inherits the stamp
    that delete captured. -/
theorem setKey_over_placeholder (value : V) {prev : MvccStamp}
    (hslot : s.table.getMvcc key = some placeholder)
    (harmed : s.stamper.armed = [⟨key, true, prev⟩]) :
    (s.setKey key value).stamper.armed = [⟨key, true, prev⟩, ⟨key, false, prev⟩] ∧
      (s.setKey key value).table.prime = s.table.prime.insert key value ∧
      ∀ j, (s.setKey key value).table.getMvcc j =
        if j = key then some MvccStamp.zero else s.table.getMvcc j := by
  have hslot' : (s.table.setPrime key value).getMvcc key = some placeholder := hslot
  have harm : s.stamper.tombstoneArm? key = some ⟨key, true, prev⟩ := by
    simp [tombstoneArm?, harmed]
  refine ⟨?_, ?_, ?_⟩
  · simp [setKey, postUpdate, DbTable.ensureMvcc, hslot', arm, effectivePrev, harm, harmed]
  · obtain ⟨_, _, hw, _⟩ := (s.table.setPrime key value).ensureMvcc_slotWrite key
    exact hw.prime
  · intro j
    simp only [setKey, postUpdate, DbTable.ensureMvcc, hslot', placeholder_isTombstone, if_true]
    exact lookup_insert_ite _ key j zero

theorem Wrote.single {value : V}
    (hstamper : s.stamper = { s0.stamper with armed := s.stamper.armed })
    (hprime : ∀ j, s.table.prime.lookup j = if j = key then some value else s0.table.prime.lookup j)
    (hother : ∀ j, j ≠ key → s.table.getMvcc j = s0.table.getMvcc j)
    (hslot : (s.table.getMvcc key).isSome = true) (hkey : ∀ a ∈ s.stamper.armed, a.key = key)
    (hplain : ∃ a ∈ s.stamper.armed, a.tombstone = false) (hfirst : TombstoneFirst s.stamper.armed)
    (hprev : ∀ a ∈ s.stamper.armed, a.prevStamp.mvcc = 0 ∨
      s0.table.getMvcc key = some a.prevStamp) :
    Wrote s0 s [(key, value)] := by
  have hlast : ∀ j, lastWrite [(key, value)] j = if key = j then some value else none := fun j => by
    simp [lastWrite]
  refine ⟨hstamper, ?_, ?_, ?_, ?_, ?_, hfirst, ?_⟩
  · intro j
    rw [hprime, hlast]
    by_cases hj : j = key <;> simp [hj, eq_comm (a := key)]
  · intro j hj
    rw [hlast] at hj
    exact hother j fun heq => by simp [heq] at hj
  · intro a ha
    rw [hkey a ha]
    exact hslot
  · intro a ha
    rw [hlast, hkey a ha]
    simp
  · intro j hj
    rw [hlast] at hj
    have hjk : key = j := by
      by_contra hne
      simp [hne] at hj
    obtain ⟨a, ha, hp⟩ := hplain
    exact ⟨a, ha, (hkey a ha).trans hjk, hp⟩
  · intro a ha _
    rw [hkey a ha]
    exact hprev a ha

/-- `RESTORE REPLACE` stores its pair; the mint clears the old stamp as long as the delete in
    between could leave a tombstone. -/
theorem restoreKey_wrote (hc : s0.Clean) (cfg : TombstoneConfig) (key : K) (value : V) :
    Wrote s0 (s0.restoreKey cfg key value) [(key, value)] ∧
      (s0.table.prime.lookup key = none ∨ cfg.hasRoom s0.table = true →
        Floored s0 (s0.restoreKey cfg key value) [(key, value)]) := by
  have hagree := hc.prime key
  cases hslot : s0.table.getMvcc key with
  | none =>
    -- no old value: a plain store
    rw [hslot] at hagree
    have hplain : s0.restoreKey cfg key value = s0.setKey key value := by
      simp [restoreKey, hagree]
    have hst := (Stored.nil hc).setKey hc key value
    rw [hplain]
    exact ⟨hst.toWrote, fun _ => hst.floored⟩
  | some st =>
    rw [hslot] at hagree
    have hlive := (hc.slot key st hslot).1
    -- the first PostUpdate only arms, and the delete disarms
    have hpost : s0.postUpdate key = ⟨s0.table, s0.stamper.arm key st⟩ := by
      simp [postUpdate, DbTable.ensureMvcc, hslot, hlive]
    have hdisarm : (s0.stamper.arm key st).disarm key = { s0.stamper with armed := [] } := by
      simp [arm, MvccStamper.disarm, hc.armed]
    obtain ⟨hprime, hcases⟩ :=
      performDeletionAtomic_explicit_cases cfg ⟨s0.table, s0.stamper.arm key st⟩ key
    have hres : s0.restoreKey cfg key value =
        ((performDeletionAtomic cfg ⟨s0.table, s0.stamper.arm key st⟩ key .explicit)).setKey
          key value := by
      simp [restoreKey, hagree, hpost]
    rw [hres]
    generalize hd : performDeletionAtomic cfg ⟨s0.table, s0.stamper.arm key st⟩ key
      .explicit = d at hprime hcases
    have hins : ∀ j, (d.table.prime.insert key value).lookup j =
        if j = key then some value else s0.table.prime.lookup j := by
      intro j
      rw [lookup_insert_ite, hprime]
      split
      case isTrue => rfl
      case isFalse hj => exact Finmap.lookup_erase_ne hj
    cases hroom : cfg.hasRoom s0.table with
    | true =>
      simp only [hroom, if_true, hdisarm, hslot, Option.getD_some] at hcases
      obtain ⟨hstamp, hget⟩ := hcases
      have harmed : d.stamper.armed = [⟨key, true, st⟩] := by
        rw [hstamp]
        rfl
      obtain ⟨ha, hp, hg⟩ := setKey_over_placeholder value (by rw [hget, if_pos rfl]) harmed
      refine ⟨Wrote.single ?_ (fun j => by rw [hp, hins]) (fun j hj => ?_) (by rw [hg]; simp)
        (by rw [ha]; simp) ⟨_, by rw [ha]; exact mem_cons_of_mem _ mem_cons_self, rfl⟩ ?_ ?_,
          fun _ => ?_⟩
      · rw [setKey_stamper, hstamp]
        rfl
      · rw [hg, if_neg hj, hget, if_neg hj]
      · rw [ha]
        exact pairwise_pair.mpr fun _ => rfl
      · rw [ha, hslot]
        simp
      · intro j stamp _ hj
        by_cases hjk : j = key
        · rw [hjk, hslot] at hj
          cases hj
          exact ⟨⟨key, false, st⟩, by rw [ha]; simp, rfl⟩
        · rename_i hsome
          simp [lastWrite, Ne.symm hjk] at hsome
    | false =>
      simp only [hroom, false_eq_true, if_false, hdisarm] at hcases
      obtain ⟨hstamp, hget⟩ := hcases
      have hnone : d.table.getMvcc key = none := by rw [hget, if_pos rfl]
      obtain ⟨ha, hp, hg⟩ := setKey_of_live (s := d) key value (by simp [hnone])
      have harmed : d.stamper.armed = [] := by rw [hstamp]
      rw [harmed, hnone, Option.getD_none, nil_append] at ha
      refine ⟨Wrote.single ?_ (fun j => by rw [hp, hins]) (fun j hj => ?_) (by rw [hg]; simp)
        (by rw [ha]; simp) ⟨_, by rw [ha]; exact mem_cons_self, rfl⟩
        (by rw [ha]; exact pairwise_singleton _ _) ?_, fun hor => ?_⟩
      · rw [setKey_stamper, hstamp]
      · rw [hg, if_neg hj, hget, if_neg hj]
      · intro a hmem
        rw [ha, mem_singleton] at hmem
        rw [hmem]
        exact Or.inl zero_mvcc
      · rcases hor with hor | hor
        · simp [hor] at hagree
        · simp at hor

end Commands

end Drakeydb.Mvcc
