import Drakeydb.Lib.Run
import Drakeydb.Mvcc.Shard

/-!
# Merge Loading

`RdbLoader::CreateObjectOnShard` and `RdbLoader::ApplyMergeTombstoneOnShard` of
`server/rdb_load.cc`: a peer's snapshot is merged key by key, the stored side winning ties.

A record arrives decoded (chunked values and decoding errors belong to the parser, memory limits
to the allocator). Looking a key up may expire it lazily; that branch is part of the model.
-/

namespace Drakeydb.Mvcc

open Option

/-! ## §1 Records -/

/-- What the prime table holds under a key. `expireMs = 0` is no expiry. -/
structure PrimeValue (V : Type*) where
  value : V
  expireMs : UInt64
  sticky : Bool
  mcFlags : Option UInt32
  deriving DecidableEq

instance {V : Type*} [Inhabited V] : Inhabited (PrimeValue V) := ⟨⟨default, 0, false, none⟩⟩

/-- A decoded `RdbLoader::Item`; the options are `has_mc_flags` and `has_mvcc`. -/
structure Item (K V : Type*) where
  key : K
  value : V
  expireMs : UInt64
  isSticky : Bool
  mcFlags : Option UInt32
  mvcc : Option MvccStamp

/-- A record of a snapshot: a key with its value, or an entry of the tombstone section. -/
inductive Record (K V : Type*) where
  | item (it : Item K V)
  | tombstone (key : K) (stamp : MvccStamp)

/-- What the loader and its shard are configured with. `selfHash` is the stamper's
    `OriginHash(kSelfIdx)`; `expireAllowed` says whether lookups may expire keys lazily. -/
structure LoadContext where
  tombstones : TombstoneConfig
  mergeLww : Bool
  mergeClassicProtocol : Bool
  rdbCtimeMs : UInt64
  mergeOriginHash : UInt64
  selfHash : UInt64
  expireAllowed : Bool
  journal : Bool
  replMvcc : UInt64

/-- One record, loaded at a time in a context. -/
structure Load (K V : Type*) where
  ctx : LoadContext
  nowMs : UInt64
  record : Record K V

def Record.key {K V : Type*} : Record K V → K
  | .item it => it.key
  | .tombstone key _ => key

/-- The stamp an item is merged with. A classic-protocol peer sends none; its snapshot's creation
    time stands in, never later than now. -/
def Load.incoming {K V : Type*} (l : Load K V) (it : Item K V) : MvccStamp :=
  if l.ctx.mergeLww && l.ctx.mergeClassicProtocol && it.mvcc.isNone then
    let ctimeMs := if l.ctx.rdbCtimeMs = 0 then l.nowMs else l.ctx.rdbCtimeMs + 999
    let origin := if l.ctx.mergeOriginHash ≠ 0 then l.ctx.mergeOriginHash else l.ctx.selfHash
    ⟨min ctimeMs l.nowMs <<< kCounterBits, origin⟩
  else it.mvcc.getD MvccStamp.zero

/-- Has a value with this expiry time expired? -/
def isExpired (expireMs nowMs : UInt64) : Bool := decide (expireMs > 0) && decide (nowMs ≥ expireMs)

/-! ## §2 The loader -/

section Loader

variable {K V : Type*} [DecidableEq K]

/-- `ExpireIfNeeded`, as a lookup of the key runs it. -/
def expireIfNeeded (l : LoadContext) (nowMs : UInt64) (s : DbSlice K (PrimeValue V)) (key : K) :
    Option (DbSlice K (PrimeValue V)) :=
  match s.table.prime.lookup key with
  | none => some s
  | some pv =>
    if l.expireAllowed && isExpired pv.expireMs nowMs then
      let s' := s.performDeletionAtomic l.tombstones key .expired
      if l.journal then s'.recordExpiryBlocking key l.replMvcc nowMs else some s'
    else some s

/-- `Disarm`, lifted to the slice. -/
def DbSlice.disarm {V : Type*} (s : DbSlice K V) (key : K) : DbSlice K V :=
  ⟨s.table, s.stamper.disarm key⟩

/-- `ApplyMergeTombstoneOnShard`. Both `MergeAccepts` checks are there: the lookup in between may
    have expired the resident value. -/
def applyMergeTombstoneOnShard (l : LoadContext) (nowMs : UInt64) (s : DbSlice K (PrimeValue V))
    (key : K) (stamp : MvccStamp) (residentLive : Bool) : Option (DbSlice K (PrimeValue V)) :=
  if stamp.mvcc = 0 then some s
  else if !mergeAccepts (s.table.getMvcc key) stamp then some s
  else
    (if residentLive then expireIfNeeded l nowMs s key else some s).map fun s =>
      if !mergeAccepts (s.table.getMvcc key) stamp then
        if residentLive then s.disarm key else s
      else if residentLive && (s.table.prime.lookup key).isSome then
        let s := (s.postUpdate key).performDeletionAtomic l.tombstones key .explicit
        if isTombstoneSlot (s.table.getMvcc key) then
          ⟨s.table.setTombstone key stamp, s.stamper.disarm key⟩
        else s
      else
        let s := if residentLive then s.disarm key else s
        ⟨s.table.installAbsentKeyTombstone l.tombstones key stamp, s.stamper⟩

/-- `AddOrFind`: the slice with the key in the prime table, and whether it is new. -/
def addOrFind [Inhabited V] (l : LoadContext) (nowMs : UInt64) (s : DbSlice K (PrimeValue V))
    (key : K) : Option (DbSlice K (PrimeValue V) × Bool) :=
  (expireIfNeeded l nowMs s key).map fun s =>
    match s.table.prime.lookup key with
    | some _ => (s, false)
    | none => (⟨s.table.setPrime key default, s.stamper⟩, true)

/-- What `CreateObjectOnShard` stores for an item. -/
def Item.primeValue {K : Type*} (it : Item K V) : PrimeValue V :=
  ⟨it.value, it.expireMs, it.isSticky, it.mcFlags⟩

/-- `CreateObjectOnShard` on a decoded item. -/
def createObjectOnShard [Inhabited V] (l : Load K V) (s : DbSlice K (PrimeValue V))
    (it : Item K V) : Option (DbSlice K (PrimeValue V)) :=
  let incoming := l.incoming it
  if isExpired it.expireMs l.nowMs then
    if l.ctx.mergeLww then
      applyMergeTombstoneOnShard l.ctx l.nowMs s it.key (expiryTombstoneFor incoming)
        (s.table.prime.lookup it.key).isSome
    else some s
  else if l.ctx.mergeLww && !mergeAccepts (s.table.getMvcc it.key) incoming then some s
  else
    (addOrFind l.ctx l.nowMs s it.key).map fun (s, isNew) =>
      if l.ctx.mergeLww && !mergeAccepts (s.table.getMvcc it.key) incoming then
        -- a fresh insert is rolled back, a resident value stays as it was
        if isNew then ⟨s.table.erasePrime it.key, s.stamper⟩ else s
      else ⟨(s.table.setPrime it.key it.primeValue).setMvcc it.key incoming, s.stamper⟩

def applyLoad [Inhabited V] (s : DbSlice K (PrimeValue V)) (l : Load K V) :
    Option (DbSlice K (PrimeValue V)) :=
  match l.record with
  | .item it => createObjectOnShard l s it
  | .tombstone key stamp =>
    applyMergeTombstoneOnShard l.ctx l.nowMs s key stamp (s.table.prime.lookup key).isSome

/-- Load records one after another. -/
def applyLoads [Inhabited V] (s : DbSlice K (PrimeValue V)) (ls : List (Load K V)) :
    Option (DbSlice K (PrimeValue V)) :=
  Lib.run applyLoad s ls

end Loader

/-! ## §3 The register behind a key -/

/-- What a record stands for once loaded: a live value or, with `live = none`, a delete. -/
structure Effect (V : Type*) where
  live : Option (PrimeValue V)
  stamp : MvccStamp
  deriving DecidableEq

/-- Effects are ranked by their stamp. -/
def Effect.rank {V : Type*} (e : Effect V) : ℕ ×ₗ ℕ := e.stamp.rank

/-- The effect of a record. An expired item is a delete one tick above its value; a live stamp
    is stored without bit 63. -/
def Load.effect {K V : Type*} (l : Load K V) : Effect V :=
  match l.record with
  | .item it =>
    if isExpired it.expireMs l.nowMs then ⟨none, expiryTombstoneFor (l.incoming it)⟩
    else ⟨some it.primeValue, (l.incoming it).masked⟩
  | .tombstone _ stamp => ⟨none, stamp⟩

section Register

variable {K V : Type*} [DecidableEq K]

/-- What a reader can see of a key: its value and its slot. -/
def keyState (s : DbSlice K (PrimeValue V)) (key : K) :
    Option (PrimeValue V) × Option MvccStamp :=
  (s.table.prime.lookup key, s.table.getMvcc key)

/-- A key's state as a register: a key without a slot has nothing to defend. -/
def register (ks : Option (PrimeValue V) × Option MvccStamp) : Option (Effect V) :=
  ks.2.map fun stamp => ⟨ks.1, stamp⟩

/-- The state a key is left in when an effect is offered to it. -/
def offerState (ks : Option (PrimeValue V) × Option MvccStamp) (e : Effect V) :
    Option (PrimeValue V) × Option MvccStamp :=
  if mergeAccepts ks.2 e.stamp then (e.live, some e.stamp) else ks

omit [DecidableEq K] in
theorem register_offerState (ks : Option (PrimeValue V) × Option MvccStamp) (e : Effect V) :
    register (offerState ks e) = Lib.offer Effect.rank (register ks) e := by
  have hacc : mergeAccepts ks.2 e.stamp = Lib.accepts Effect.rank (register ks) e := by
    rw [mergeAccepts_eq_accepts]
    cases h : ks.2 <;> simp only [register, h] <;> rfl
  unfold offerState Lib.offer
  rw [hacc]
  split <;> rfl

/-! ## §4 One record is one offer -/

/-- A stamp that may be merged: `Mvcc() != 0`, and bit 63 on tombstone records. -/
def Load.WellFormed (l : Load K V) : Prop :=
  match l.record with
  | .item it => (l.incoming it).mvcc ≠ 0
  | .tombstone _ stamp => stamp.isTombstone = true ∧ stamp.mvcc ≠ 0

/-- A record for `key` that meets a shard with tombstones enabled, below the cap, whose resident
    value does not expire under it. -/
structure Admissible (key : K) (s : DbSlice K (PrimeValue V)) (l : Load K V) : Prop where
  key_eq : l.record.key = key
  merge : l.ctx.mergeLww = true
  enabled : l.ctx.tombstones.enabled = true
  belowCap : s.table.stats.mvccTombstones < l.ctx.tombstones.maxTombstones
  resident : ∀ pv ∈ s.table.prime.lookup key, isExpired pv.expireMs l.nowMs = false
  wellFormed : l.WellFormed

instance (l : Load K V) : Decidable l.WellFormed :=
  match h : l.record with
  | .item it => decidable_of_iff ((l.incoming it).mvcc ≠ 0) (by simp [Load.WellFormed, h])
  | .tombstone _ stamp =>
    decidable_of_iff (stamp.isTombstone = true ∧ stamp.mvcc ≠ 0) (by simp [Load.WellFormed, h])

instance (key : K) (s : DbSlice K (PrimeValue V)) (l : Load K V) :
    Decidable (Admissible key s l) :=
  decidable_of_iff
    (l.record.key = key ∧ l.ctx.mergeLww = true ∧ l.ctx.tombstones.enabled = true ∧
      s.table.stats.mvccTombstones < l.ctx.tombstones.maxTombstones ∧
      (∀ pv ∈ s.table.prime.lookup key, isExpired pv.expireMs l.nowMs = false) ∧ l.WellFormed)
    ⟨fun ⟨a, b, c, d, e, f⟩ => ⟨a, b, c, d, e, f⟩, fun ⟨a, b, c, d, e, f⟩ => ⟨a, b, c, d, e, f⟩⟩

variable {s : DbSlice K (PrimeValue V)} {l : LoadContext} {nowMs : UInt64}

theorem expireIfNeeded_eq_self {key : K}
    (h : ∀ pv, s.table.prime.lookup key = some pv → isExpired pv.expireMs nowMs = false) :
    expireIfNeeded l nowMs s key = some s := by
  unfold expireIfNeeded
  split
  · rfl
  · rename_i pv hpv
    simp [h pv hpv]

theorem postUpdate_mvccTombstones_le (s : DbSlice K V) (key : K) :
    (s.postUpdate key).table.stats.mvccTombstones ≤ s.table.stats.mvccTombstones := by
  obtain ⟨new, hnew, hw, -⟩ := s.table.ensureMvcc_slotWrite key
  have h := hw.tombstones
  simp only [DbTable.tombstoneCount, isTombstoneSlot_some, hnew, Bool.false_eq_true, if_false] at h
  change (s.table.ensureMvcc key).1.stats.mvccTombstones ≤ _
  split at h <;> omega

/-- Below the cap an explicit delete leaves no value and a placeholder slot. -/
theorem performDeletionAtomic_explicit {cfg : TombstoneConfig} (s : DbSlice K V) (key : K)
    (hen : cfg.enabled = true) (hcap : s.table.stats.mvccTombstones < cfg.maxTombstones) :
    (s.performDeletionAtomic cfg key .explicit).table.prime.lookup key = none ∧
      (s.performDeletionAtomic cfg key .explicit).table.getMvcc key = some placeholder := by
  have hslot := (s.table.setTombstone_slotWrite key placeholder_isTombstone).lookup_self
  simp only [DbSlice.performDeletionAtomic, earnsTombstone, hen, hcap, decide_true, Bool.true_and,
    Bool.true_or, if_true]
  exact ⟨Finmap.lookup_erase _ _, hslot⟩

theorem applyMergeTombstone_keyState (key : K) {stamp : MvccStamp} (hst : stamp.isTombstone = true)
    (hne : stamp.mvcc ≠ 0) (hen : l.tombstones.enabled = true)
    (hcap : s.table.stats.mvccTombstones < l.tombstones.maxTombstones)
    (hres : ∀ pv, s.table.prime.lookup key = some pv → isExpired pv.expireMs nowMs = false) :
    ∃ s', applyMergeTombstoneOnShard l nowMs s key stamp (s.table.prime.lookup key).isSome =
        some s' ∧ keyState s' key = offerState (keyState s key) ⟨none, stamp⟩ := by
  have hoff : offerState (keyState s key) ⟨none, stamp⟩ =
      if mergeAccepts (s.table.getMvcc key) stamp then (none, some stamp) else keyState s key := rfl
  unfold applyMergeTombstoneOnShard
  rw [if_neg hne, hoff]
  cases hacc : mergeAccepts (s.table.getMvcc key) stamp with
  | false => exact ⟨s, rfl, rfl⟩
  | true =>
    simp only [expireIfNeeded_eq_self hres, ite_self, map_some, hacc, Bool.not_true,
      Bool.false_eq_true, if_false, if_true, Bool.and_self]
    cases hlive : (s.table.prime.lookup key).isSome with
    | true =>
      -- a live value: delete it, then the delete's placeholder takes the record's stamp
      have hcap' := (postUpdate_mvccTombstones_le s key).trans_lt hcap
      obtain ⟨hprime, hslot⟩ := performDeletionAtomic_explicit (s.postUpdate key) key hen hcap'
      have hw := DbTable.setTombstone_slotWrite
        ((s.postUpdate key).performDeletionAtomic l.tombstones key .explicit).table key hst
      simp only [hslot, isTombstoneSlot_some, placeholder_isTombstone, if_true]
      refine ⟨_, rfl, ?_⟩
      simp [keyState, hw.lookup_self, hw.prime, hprime]
    | false =>
      have hprime : s.table.prime.lookup key = none := not_isSome_iff_eq_none.mp (by simp [hlive])
      have hw := s.table.setTombstone_slotWrite key hst
      simp only [Bool.false_eq_true, if_false, DbTable.installAbsentKeyTombstone, hen, hcap,
        decide_true, Bool.or_true, if_true]
      refine ⟨_, rfl, ?_⟩
      simp [keyState, hw.lookup_self, hw.prime, hprime]

theorem keyState_store (t : DbTable K (PrimeValue V)) (st : MvccStamper K) (key : K)
    (pv : PrimeValue V) (stamp : MvccStamp) :
    keyState ⟨(t.setPrime key pv).setMvcc key stamp, st⟩ key = (some pv, some stamp.masked) := by
  have hw := (t.setPrime key pv).setMvcc_slotWrite key stamp
  simp only [keyState, hw.lookup_self, hw.prime]
  simp only [DbTable.setPrime, Finmap.lookup_insert]

theorem createObject_keyState [Inhabited V] {l : Load K V}
    {it : Item K V} (hlive : isExpired it.expireMs l.nowMs = false)
    (hres : ∀ pv, s.table.prime.lookup it.key = some pv → isExpired pv.expireMs l.nowMs = false)
    (hmerge : l.ctx.mergeLww = true) :
    ∃ s', createObjectOnShard l s it = some s' ∧ keyState s' it.key =
      offerState (keyState s it.key) ⟨some it.primeValue, (l.incoming it).masked⟩ := by
  have hoff : offerState (keyState s it.key) ⟨some it.primeValue, (l.incoming it).masked⟩ =
      if mergeAccepts (s.table.getMvcc it.key) (l.incoming it) then
        (some it.primeValue, some (l.incoming it).masked) else keyState s it.key := by
    -- the order cannot see bit 63, so masking does not change the decision
    have hmask : mergeAccepts (s.table.getMvcc it.key) (l.incoming it).masked =
        mergeAccepts (s.table.getMvcc it.key) (l.incoming it) := by
      cases s.table.getMvcc it.key <;> simp [mergeAccepts, MvccStamp.lt_eq_decide_rank]
    simp [offerState, keyState, hmask]
  unfold createObjectOnShard addOrFind
  simp only [hlive, Bool.false_eq_true, if_false, hmerge, Bool.true_and, hoff,
    expireIfNeeded_eq_self hres, map_some]
  cases hacc : mergeAccepts (s.table.getMvcc it.key) (l.incoming it) with
  | false => exact ⟨s, rfl, rfl⟩
  | true =>
    cases hprime : s.table.prime.lookup it.key with
    | some pv =>
      simp only [hacc, Bool.not_true, Bool.false_eq_true, if_false]
      exact ⟨_, rfl, keyState_store _ _ _ _ _⟩
    | none =>
      have hget : (s.table.setPrime it.key default).getMvcc it.key = s.table.getMvcc it.key := rfl
      simp only [hget, hacc, Bool.not_true, Bool.false_eq_true, if_false]
      exact ⟨_, rfl, keyState_store _ _ _ _ _⟩

/-- **One record is one offer**: an admissible record is loaded and leaves its key in the state
    the register predicts. -/
theorem applyLoad_keyState [Inhabited V] {key : K} {l : Load K V} (h : Admissible key s l) :
    ∃ s', applyLoad s l = some s' ∧ keyState s' key = offerState (keyState s key) l.effect := by
  obtain ⟨hkey, hmerge, hen, hcap, hres, hwf⟩ := h
  unfold Load.WellFormed at hwf
  cases hrec : l.record with
  | item it =>
    simp only [hrec] at hwf
    have hk : it.key = key := by simpa [hrec, Record.key] using hkey
    subst hk
    cases hexp : isExpired it.expireMs l.nowMs with
    | true =>
      have hstep := applyMergeTombstone_keyState it.key
        (expiryTombstoneFor_isTombstone (l.incoming it))
        (expiryTombstoneFor_mvcc_ne_zero hwf) hen hcap hres
      simpa [applyLoad, Load.effect, createObjectOnShard, hrec, hexp, hmerge] using hstep
    | false =>
      have hstep := createObject_keyState (l := l) (s := s) hexp hres hmerge
      simpa [applyLoad, Load.effect, hrec, hexp] using hstep
  | tombstone k stamp =>
    simp only [hrec] at hwf
    have hk : k = key := by simpa [hrec, Record.key] using hkey
    subst hk
    have hstep := applyMergeTombstone_keyState k hwf.1 hwf.2 hen hcap hres
    simpa [applyLoad, Load.effect, hrec] using hstep

/-- A record the stored stamp outranks leaves the whole shard as it was. -/
theorem applyLoad_eq_self [Inhabited V] {l : Load K V} (hmerge : l.ctx.mergeLww = true)
    (hrej : mergeAccepts (s.table.getMvcc l.record.key) l.effect.stamp = false) :
      applyLoad s l = some s := by
  cases hrec : l.record with
  | item it =>
    cases hexp : isExpired it.expireMs l.nowMs with
    | true =>
      simp only [hrec, Record.key, Load.effect, hexp, if_true] at hrej
      simp [applyLoad, hrec, createObjectOnShard, hexp, hmerge, applyMergeTombstoneOnShard, hrej]
    | false =>
      have hrej' : mergeAccepts (s.table.getMvcc it.key) (l.incoming it) = false := by
        rw [← hrej]
        simp only [hrec, Record.key, Load.effect, hexp, Bool.false_eq_true, if_false]
        cases s.table.getMvcc it.key <;> simp [mergeAccepts, MvccStamp.lt_eq_decide_rank]
      simp [applyLoad, hrec, createObjectOnShard, hexp, hmerge, hrej']
  | tombstone key stamp =>
    simp only [hrec, Record.key, Load.effect] at hrej
    simp [applyLoad, hrec, applyMergeTombstoneOnShard, hrej]

/-! ## §5 Whole runs -/

/-- Every record of the list is admissible in the state it meets. -/
def AdmissibleRun [Inhabited V] (key : K) (s : DbSlice K (PrimeValue V)) (ls : List (Load K V)) :
    Prop :=
  Lib.RunAll applyLoad (Admissible key) s ls

instance [Inhabited V] (key : K) (s : DbSlice K (PrimeValue V)) (ls : List (Load K V)) :
    Decidable (AdmissibleRun key s ls) :=
  inferInstanceAs (Decidable (Lib.RunAll applyLoad (Admissible key) s ls))

/-- A run is a fold of offers, and the key ends with its original state or a record's. -/
theorem applyLoads_register [Inhabited V] {key : K} {ls : List (Load K V)}
    (h : AdmissibleRun key s ls) :
    ∃ t, applyLoads s ls = some t ∧
      register (keyState t key) =
        Lib.offerAll Effect.rank (register (keyState s key)) (ls.map Load.effect) ∧
      (keyState t key = keyState s key ∨
        ∃ l ∈ ls, keyState t key = (l.effect.live, some l.effect.stamp)) := by
  induction ls generalizing s with
  | nil => exact ⟨s, rfl, rfl, Or.inl rfl⟩
  | cons l ls ih =>
    obtain ⟨hadm, hrest⟩ := h
    obtain ⟨s', hstep, hks⟩ := applyLoad_keyState hadm
    obtain ⟨t, hrun, hreg, hend⟩ := ih (hrest s' hstep)
    refine ⟨t, ?_, ?_, ?_⟩
    · exact (Lib.run_cons_of_eq_some ls hstep).trans hrun
    · simp [hreg, hks, register_offerState]
    · rcases hend with hend | ⟨l', hl', hend⟩
      · rw [hks] at hend
        unfold offerState at hend
        split at hend
        · exact Or.inr ⟨l, List.mem_cons_self, hend⟩
        · exact Or.inl hend
      · exact Or.inr ⟨l', List.mem_cons_of_mem _ hl', hend⟩

omit [DecidableEq K] in
/-- A register determines the key state, but for a key that never had a slot. -/
theorem keyState_eq_of_register {a b k : Option (PrimeValue V) × Option MvccStamp}
    (h : register a = register b) (ha : a = k ∨ a.2.isSome = true)
    (hb : b = k ∨ b.2.isSome = true) : a = b := by
  obtain ⟨av, aslot⟩ := a
  obtain ⟨bv, bslot⟩ := b
  cases aslot <;> cases bslot <;> simp_all [register]

/-- **Merge-load convergence**: two runs over the same set of records, in any order and with any
    repetitions, leave the key in the same state; that state is the greatest record's or the
    resident's, and loading any of the records once more changes nothing. -/
theorem merge_load_converges [Inhabited V] (key : K) (s : DbSlice K (PrimeValue V))
    (ls ms : List (Load K V)) (hls : AdmissibleRun key s ls) (hms : AdmissibleRun key s ms)
    (hset : ∀ e, e ∈ ls.map Load.effect ↔ e ∈ ms.map Load.effect)
    (hdiff : ∀ e ∈ ls.map Load.effect, ∀ f ∈ ls.map Load.effect, e.rank = f.rank → e = f) :
    ∃ t u, applyLoads s ls = some t ∧ applyLoads s ms = some u ∧
      keyState t key = keyState u key ∧
      Lib.IsWinner Effect.rank (register (keyState s key)) (ls.map Load.effect)
        (register (keyState t key)) ∧
      (keyState t key = keyState s key ∨
        ∃ l ∈ ls, keyState t key = (l.effect.live, some l.effect.stamp)) ∧
      ∀ l : Load K V, l.record.key = key → l.ctx.mergeLww = true →
        l.effect ∈ ls.map Load.effect → applyLoad t l = some t := by
  obtain ⟨t, hrunt, hregt, hendt⟩ := applyLoads_register hls
  obtain ⟨u, hrunu, hregu, hendu⟩ := applyLoads_register hms
  have hwin : Lib.IsWinner Effect.rank (register (keyState s key)) (ls.map Load.effect) _ :=
    Lib.offerAll_isWinner _ _
  rw [← hregt] at hwin
  refine ⟨t, u, hrunt, hrunu, ?_, hwin, hendt, ?_⟩
  · -- the registers agree by the library's order irrelevance
    have hreg : register (keyState t key) = register (keyState u key) := by
      rw [hregt, hregu]
      exact Lib.offerAll_congr hset hdiff
    have slot : ∀ {w : DbSlice K (PrimeValue V)} {rs : List (Load K V)},
        (keyState w key = keyState s key ∨
          ∃ l ∈ rs, keyState w key = (l.effect.live, some l.effect.stamp)) →
        keyState w key = keyState s key ∨ (keyState w key).2.isSome = true := by
      rintro w rs (hw | ⟨l, -, hw⟩)
      · exact Or.inl hw
      · exact Or.inr (by rw [hw]; rfl)
    exact keyState_eq_of_register hreg (slot hendt) (slot hendu)
  · intro l hkey hmerge hmem
    refine applyLoad_eq_self hmerge ?_
    obtain ⟨v, hv, hle⟩ := hwin.dominates l.effect hmem
    rw [hkey, mergeAccepts_eq_accepts]
    cases hslot : t.table.getMvcc key with
    | none => simp [register, keyState, hslot] at hv
    | some st =>
      simp only [register, keyState, hslot, map_some, some.injEq] at hv
      subst hv
      exact decide_eq_false (not_lt.mpr hle)

/-- A live value and a later delete, in both orders and with the delete repeated, on a key with
    no history. -/
theorem merge_load_converges_delete_wins :
    let ctx : LoadContext := ⟨⟨true, 8⟩, true, false, 0, 0, 7, true, true, 0⟩
    let put : Load ℕ ℕ := ⟨ctx, 100, .item ⟨0, 41, 0, false, none, some ⟨5, 1⟩⟩⟩
    let del : Load ℕ ℕ := ⟨ctx, 100, .tombstone 0 ⟨kTombstoneBit ||| 6, 2⟩⟩
    let s : DbSlice ℕ (PrimeValue ℕ) := ⟨DbTable.empty, MvccStamper.init fun _ => 7⟩
    ∃ t u, applyLoads s [put, del] = some t ∧ applyLoads s [del, put, del] = some u ∧
      keyState t 0 = keyState u 0 ∧ (keyState t 0).1 = none := by
  intro ctx put del s
  obtain ⟨t, u, ht, hu, heq, -, -, -⟩ := merge_load_converges 0 s [put, del] [del, put, del]
    (by decide +kernel) (by decide +kernel) (by simp only [List.map_cons, List.map_nil,
      List.mem_cons, List.not_mem_nil, or_false]; tauto) (by decide +kernel)
  refine ⟨t, u, ht, hu, heq, ?_⟩
  have hval : (applyLoads s [put, del]).map (fun t => (keyState t 0).1) = some none := by
    decide +kernel
  simpa [ht] using hval

end Register

end Drakeydb.Mvcc
