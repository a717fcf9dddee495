import Drakeydb.Lib.Run
import Drakeydb.Mvcc.StreamingOffers

/-!
# A Mesh of Active Replicas

Nodes write locally and send every entry they author to all other nodes; entries arrive in any
order and any number of times. A node may be split into shards ("places"): each key lives at one
place of every node, and a multi-key write is one entry per place.

The log of authored entries and the lists of entries a place has processed are ghosts: no
operation reads them.
-/

namespace Drakeydb.Mvcc

open List Option Function

/-! ## §1 The mesh -/

/-- Who is in the mesh. `originIdx n a` is the index under which node `n` registered the author
    `a`; index 0 is the node itself. -/
structure Topology (Node Place K : Type*) where
  node : Place → Node
  home : Node → K → Place
  node_home : ∀ n key, node (home n key) = n
  hash : Node → UInt64
  hash_ne_zero : ∀ n, hash n ≠ 0
  hash_injective : Function.Injective hash
  originHash : Node → ℕ → UInt64
  originIdx : Node → Node → ℕ
  registered : ∀ n a, originHash n (originIdx n a) = hash a
  self : ∀ n, originHash n 0 = hash n

/-- A journaled command with the stamp its author minted. -/
structure MeshEntry (Node K V : Type*) where
  author : Node
  cmd : Command K V
  mvcc : UInt64
  deriving DecidableEq

/-- All places, the entries authored so far, and the entries each place has processed. -/
structure MeshState (Node Place K V : Type*) where
  slice : Place → DbSlice K V
  log : List (MeshEntry Node K V)
  processed : Place → List (MeshEntry Node K V)

/-- A client's write at a place, or the arrival of a log entry at a place. -/
inductive MeshEvent (Place K V : Type*) where
  | write (p : Place) (cfg : TombstoneConfig) (cmd : Command K V) (nowMs : UInt64)
  | deliver (p : Place) (cfg : TombstoneConfig) (i : ℕ) (nowMs : UInt64)

/-- The part of a command that concerns the keys a place owns. -/
def Command.restrict {K V : Type*} (own : K → Bool) : Command K V → Command K V
  | .set key value => .set key value
  | .restoreReplace key value => .restoreReplace key value
  | .mset pairs => .mset (pairs.filter fun p => own p.1)

section Mesh

variable {Node Place K V : Type*} [DecidableEq Place] [DecidableEq K]
  (T : Topology Node Place K)

/-- The keys that live at a place. -/
def Topology.owns (p : Place) (key : K) : Bool :=
  decide (T.home (T.node p) key = p)

/-- An entry's stamp: the author's mint and the author's hash. -/
def Topology.stamp (e : MeshEntry Node K V) : MvccStamp :=
  ⟨e.mvcc, T.hash e.author⟩

/-- The versions a list of entries offers to a key. -/
def Topology.offers (es : List (MeshEntry Node K V)) (key : K) :
    List (V × MvccStamp) :=
  es.flatMap fun e => versions e.cmd.pairs (T.stamp e) key

namespace MeshState

/-- Nothing written anywhere. -/
def init : MeshState Node Place K V :=
  ⟨fun p => ⟨DbTable.empty, MvccStamper.init (T.originHash (T.node p))⟩, [], fun _ => []⟩

variable (m : MeshState Node Place K V)

/-- What a node holds for a key. -/
def held (n : Node) (key : K) :
    Option (V × MvccStamp) :=
  (m.slice (T.home n key)).held key

/-- One event; `none` is a failed `CHECK`, or the delivery of an entry that does not exist. -/
def step :
    MeshEvent Place K V → Option (MeshState Node Place K V)
  | .write p cfg cmd nowMs =>
    (runLocal cfg (m.slice p) cmd nowMs).map fun r =>
      let e : MeshEntry Node K V := ⟨T.node p, cmd, r.1⟩
      ⟨Function.update m.slice p r.2, m.log ++ [e],
        Function.update m.processed p (m.processed p ++ [e])⟩
  | .deliver p cfg i nowMs =>
    (m.log[i]?).bind fun e =>
      (runApplied cfg (m.slice p) (e.cmd.restrict (T.owns p)) e.mvcc
          (T.originIdx (T.node p) e.author) nowMs).map fun s =>
        ⟨Function.update m.slice p s, m.log, Function.update m.processed p (m.processed p ++ [e])⟩

/-- A client writes at the place of its keys, below the stamp mask; an entry is delivered to a
    place of another node that owns some of its keys. -/
def Legal : MeshEvent Place K V → Prop
  | .write p cfg cmd nowMs =>
    (∀ kv ∈ cmd.pairs, T.owns p kv.1 = true) ∧
      ∀ r ∈ runLocal cfg (m.slice p) cmd nowMs, r.1 < kStampMask
  | .deliver p _ i _ => ∃ e ∈ m.log[i]?, e.author ≠ T.node p ∧
      ∃ kv ∈ e.cmd.pairs, T.owns p kv.1 = true

/-- The condition of `LocalSound` on every client's command. -/
def Sound : MeshEvent Place K V → Prop
  | .write p cfg cmd nowMs => LocalSound cfg (m.slice p) nowMs cmd
  | .deliver .. => True

instance decidableLegal [DecidableEq Node] :
    (ev : MeshEvent Place K V) → Decidable (Legal T m ev)
  | .write .. => inferInstanceAs (Decidable (_ ∧ _))
  | .deliver .. => inferInstanceAs (Decidable (∃ e ∈ _, _))

instance decidableSound [DecidableEq V] :
    (ev : MeshEvent Place K V) → Decidable (Sound m ev)
  | .write .. => inferInstanceAs (Decidable (LocalSound ..))
  | .deliver .. => isTrue trivial

/-- Every entry has reached every other node's place of every key it writes. -/
def Delivered : Prop :=
  ∀ e ∈ m.log, ∀ n, n ≠ e.author → ∀ key, (lastWrite e.cmd.pairs key).isSome = true →
    e ∈ m.processed (T.home n key)

/-! ## §2 The invariant -/

/-- The invariant of a run. -/
structure Inv : Prop where
  clean : ∀ p, (m.slice p).Clean
  origin : ∀ p, (m.slice p).stamper.originHash = T.originHash (T.node p)
  /-- a key holds the winner of what its place has processed -/
  winner : ∀ n key, m.held T n key =
    Lib.offerAll versionRank none (T.offers (m.processed (T.home n key)) key)
  logged : ∀ p, ∀ e ∈ m.processed p, e ∈ m.log
  /-- an author has processed its own entries -/
  own : ∀ e ∈ m.log, ∀ key, (lastWrite e.cmd.pairs key).isSome = true →
    e ∈ m.processed (T.home e.author key)
  stamps : ∀ e ∈ m.log, e.mvcc ≠ 0 ∧ e.mvcc < kStampMask
  /-- stamps of different entries for one key never tie -/
  unique : ∀ e ∈ m.log, ∀ f ∈ m.log, ∀ key, (lastWrite e.cmd.pairs key).isSome = true →
    (lastWrite f.cmd.pairs key).isSome = true → (T.stamp e).rank = (T.stamp f).rank → e = f

private theorem zero_lt_kStampMask : (0 : UInt64).toNat < kStampMask.toNat := by
  decide

omit [DecidableEq Place] in
theorem init_inv : Inv T (init T : MeshState Node Place K V) := by
  have hnone : ∀ (p : Place) (key : K), ((init T : MeshState Node Place K V).slice p).table.getMvcc
      key = none := fun _ _ => rfl
  refine ⟨fun p => ⟨rfl, rfl, ?_, fun _ => rfl, zero_lt_kStampMask⟩, fun _ => rfl,
    fun _ _ => rfl, ?_, ?_, ?_, ?_⟩
  · intro key stamp hstamp
    cases hstamp
  all_goals simp [init]

variable {T}

omit [DecidableEq Place] in
theorem mem_offers {es : List (MeshEntry Node K V)} {key : K} {v : V × MvccStamp} :
    v ∈ T.offers es key ↔ ∃ e ∈ es, ∃ value, lastWrite e.cmd.pairs key = some value ∧
      v = (value, T.stamp e) := by
  simp [Topology.offers, versions, eq_comm (a := v)]

variable {p : Place}

omit [DecidableEq K] in
theorem owns_iff {key : K} {n : Node} (h : T.home n key = p) : T.owns p key = true := by
  simp [Topology.owns, ← h, T.node_home]

variable {m} {s : DbSlice K V} {e : MeshEntry Node K V}

/-- Processing one more entry at `p` is an offer to every key that lives there. -/
theorem Inv.winner_update (h : Inv T m)
    (hs : ∀ key, T.owns p key = true → s.held key = Lib.offerAll versionRank ((m.slice p).held key)
      (versions e.cmd.pairs (T.stamp e) key)) (n : Node) (key : K) :
    (update m.slice p s (T.home n key)).held key = Lib.offerAll versionRank none
      (T.offers (update m.processed p (m.processed p ++ [e]) (T.home n key)) key) := by
  have hold := h.winner n key
  by_cases hp : T.home n key = p
  · have hoffers : T.offers (m.processed p ++ [e]) key =
        T.offers (m.processed p) key ++ versions e.cmd.pairs (T.stamp e) key := by
      simp [Topology.offers]
    rw [MeshState.held, hp] at hold
    rw [hp, update_self, update_self, hs key (owns_iff hp), hold, hoffers, Lib.offerAll_append]
  · rw [update_of_ne hp, update_of_ne hp]
    exact hold

theorem Inv.clean_update (h : Inv T m) (hs : s.Clean) (q : Place) : (update m.slice p s q).Clean :=
  (forall_update_iff m.slice fun _ s => s.Clean).mpr ⟨hs, fun q _ => h.clean q⟩ q

theorem Inv.origin_update (h : Inv T m)
    (hs : s.stamper.originHash = (m.slice p).stamper.originHash) (q : Place) :
    (update m.slice p s q).stamper.originHash = T.originHash (T.node q) :=
  (forall_update_iff m.slice fun q s => s.stamper.originHash = T.originHash (T.node q)).mpr
    ⟨hs.trans (h.origin p), fun q _ => h.origin q⟩ q

theorem Inv.logged_update (h : Inv T m) {log : List (MeshEntry Node K V)}
    (hlog : ∀ f ∈ m.log, f ∈ log) (he : e ∈ log) (q : Place) :
    ∀ f ∈ update m.processed p (m.processed p ++ [e]) q, f ∈ log := by
  refine (forall_update_iff m.processed fun _ fs => ∀ f ∈ fs, f ∈ log).mpr
    ⟨?_, fun q _ f hf => hlog f (h.logged q f hf)⟩ q
  exact forall_mem_append.mpr ⟨fun f hf => hlog f (h.logged p f hf), forall_mem_singleton.mpr he⟩

omit [DecidableEq K] in
theorem mem_processed_update {q : Place} {f : MeshEntry Node K V} (hf : f ∈ m.processed q) :
    f ∈ update m.processed p (m.processed p ++ [e]) q := by
  by_cases hq : q = p
  · subst hq
    rw [update_self]
    exact mem_append_left _ hf
  · rwa [update_of_ne hq]

theorem write_inv (h : Inv T m) {cfg : TombstoneConfig} {cmd : Command K V} {nowMs : UInt64}
    (hlegal : Legal T m (.write p cfg cmd nowMs)) (hsound : Sound m (.write p cfg cmd nowMs)) :
    ∃ m', step T m (.write p cfg cmd nowMs) = some m' ∧ Inv T m' := by
  obtain ⟨hplace, hmask⟩ := hlegal
  obtain ⟨mint, s, hrun, hspec⟩ := runLocal_held (h.clean p) hsound
  obtain ⟨hne, ⟨hclean, horigin, hheld⟩, habove⟩ := hspec (hmask _ hrun)
  have hself : (m.slice p).stamper.originHash 0 = T.hash (T.node p) := by
    rw [h.origin, T.self]
  simp only [hself] at hheld habove
  have hhome : ∀ key, (lastWrite cmd.pairs key).isSome = true → T.home (T.node p) key = p := by
    intro key hkey
    obtain ⟨kv, hkv, rfl⟩ := (lastWrite_isSome_iff cmd.pairs key).mp hkey
    exact of_decide_eq_true (hplace kv hkv)
  refine ⟨⟨update m.slice p s, m.log ++ [⟨T.node p, cmd, mint⟩], update m.processed p
    (m.processed p ++ [⟨T.node p, cmd, mint⟩])⟩, by rw [step, hrun]; rfl, ?_⟩
  -- an old entry of the same author is below what the place holds, the new one above it
  have hfresh : ∀ f ∈ m.log, ∀ key, (lastWrite cmd.pairs key).isSome = true →
      (lastWrite f.cmd.pairs key).isSome = true →
      (T.stamp (⟨T.node p, cmd, mint⟩ : MeshEntry Node K V)).rank ≠ (T.stamp f).rank := by
    intro f hf key hcmd hfkey hrank
    have hauthor : f.author = T.node p :=
      T.hash_injective ((MvccStamp.rank_eq_iff _ _).mp hrank).2.symm
    have hproc := h.own f hf key hfkey
    rw [hauthor, hhome key hcmd] at hproc
    obtain ⟨value, hvalue⟩ := isSome_iff_exists.mp hfkey
    have hoffer : (value, T.stamp f) ∈ T.offers (m.processed p) key :=
      mem_offers.mpr ⟨f, hproc, value, hvalue, rfl⟩
    have hwin : Lib.IsWinner versionRank none (T.offers (m.processed p) key) _ :=
      Lib.offerAll_isWinner _ _
    obtain ⟨v, hv, hle⟩ := hwin.dominates _ hoffer
    have hwinner := h.winner (T.node p) key
    rw [MeshState.held, hhome key hcmd] at hwinner
    have hlt := habove key hcmd v (hwinner.trans hv)
    exact absurd (hlt.trans_eq hrank) (not_lt.mpr hle)
  refine ⟨h.clean_update hclean, h.origin_update horigin, h.winner_update fun key _ => hheld key,
    h.logged_update (fun f => mem_append_left _) (mem_append_right _ (mem_singleton_self _)), ?_,
      ?_, ?_⟩
  · refine forall_mem_append.mpr
      ⟨fun f hf key hkey => mem_processed_update (h.own f hf key hkey), ?_⟩
    exact forall_mem_singleton.mpr fun key hkey => by simp [hhome key hkey]
  · exact forall_mem_append.mpr ⟨h.stamps, forall_mem_singleton.mpr ⟨hne, hmask _ hrun⟩⟩
  · refine forall_mem_append.mpr ⟨fun f hf => forall_mem_append.mpr ⟨h.unique f hf, ?_⟩,
      forall_mem_singleton.mpr
        (forall_mem_append.mpr ⟨?_, forall_mem_singleton.mpr fun _ _ _ _ => rfl⟩)⟩
    · exact forall_mem_singleton.mpr fun key hfk hgk hrank =>
        absurd hrank.symm (hfresh f hf key hgk hfk)
    · exact fun g hg key hfk hgk hrank => absurd hrank (hfresh g hg key hfk hgk)

omit [DecidableEq Place] in
theorem versions_restrict (cmd : Command K V) (own : K → Bool) (stamp : MvccStamp) {key : K}
    (hown : own key = true) : versions
    (cmd.restrict own).pairs stamp key = versions cmd.pairs stamp key := by
  cases cmd with
  | set key' value => rfl
  | restoreReplace key' value => rfl
  | mset pairs =>
    simp [versions, Command.restrict, Command.pairs, lastWrite_filter, hown]

theorem deliver_inv (h : Inv T m) {cfg : TombstoneConfig} {i : ℕ} {nowMs : UInt64}
    (hlegal : Legal T m (.deliver p cfg i nowMs)) :
    ∃ m', step T m (.deliver p cfg i nowMs) = some m' ∧ Inv T m' := by
  obtain ⟨e, he, -⟩ := hlegal
  have hlog : e ∈ m.log := mem_of_getElem? he
  obtain ⟨hne, hlt⟩ := h.stamps e hlog
  have hhash : (m.slice p).stamper.originHash (T.originIdx (T.node p) e.author) =
    T.hash e.author := by
    rw [h.origin, T.registered]
  obtain ⟨s, hrun, hclean, horigin, hheld⟩ :=
    runApplied_held cfg (e.cmd.restrict (T.owns p)) nowMs (h.clean p) hne hlt
      (hhash ▸ T.hash_ne_zero e.author)
  simp only [hhash] at hheld
  refine ⟨⟨update m.slice p s, m.log, update m.processed p (m.processed p ++ [e])⟩, ?_, ?_⟩
  · simp [step, mem_def.mp he, hrun]
  refine ⟨h.clean_update hclean, h.origin_update horigin, h.winner_update fun key hkey => ?_,
    h.logged_update (fun _ hf => hf) hlog,
    fun f hf key hkey => mem_processed_update (h.own f hf key hkey), h.stamps, h.unique⟩
  rw [hheld key, versions_restrict _ _ _ hkey]
  rfl

/-- What every place holds for a key is the winner of the entries it has processed, and stamps of
different entries for one key never tie. -/
theorem step_inv (m : MeshState Node Place K V)
    (ev : MeshEvent Place K V) (h : Inv T m) (hev : Legal T m ev ∧ Sound m ev) :
    ∃ m', step T m ev = some m' ∧ Inv T m' := by
  cases ev with
  | write p cfg cmd nowMs => exact write_inv h hev.1 hev.2
  | deliver p cfg i nowMs => exact deliver_inv h hev.1

/-! ## §3 Convergence -/

omit [DecidableEq Place] in
/-- Once everything is delivered, the place of a key has processed exactly the entries of the log
    that write the key. -/
theorem Inv.mem_offers_iff (h : Inv T m) (hall : Delivered T m) (n : Node) (key : K)
    (v : V × MvccStamp) :
    v ∈ T.offers (m.processed (T.home n key)) key ↔ v ∈ T.offers m.log key := by
  simp only [mem_offers]
  constructor
  · rintro ⟨e, he, hv⟩
    exact ⟨e, h.logged _ e he, hv⟩
  · rintro ⟨e, he, value, hvalue, hv⟩
    have hwrites : (lastWrite e.cmd.pairs key).isSome = true := by rw [hvalue]; rfl
    refine ⟨e, ?_, value, hvalue, hv⟩
    by_cases hn : n = e.author
    · exact hn ▸ h.own e he key hwrites
    · exact hall e he n hn key hwrites

omit [DecidableEq Place] in
theorem Inv.rank_injective (h : Inv T m) (key : K) :
    ∀ v ∈ T.offers m.log key, ∀ w ∈ T.offers m.log key, versionRank v = versionRank w → v = w := by
  intro v hv w hw hrank
  obtain ⟨e, he, value, hvalue, rfl⟩ := mem_offers.mp hv
  obtain ⟨f, hf, value', hvalue', rfl⟩ := mem_offers.mp hw
  have hef : e = f := h.unique e he f hf key (by rw [hvalue]; rfl) (by rw [hvalue']; rfl) hrank
  subst hef
  rw [hvalue] at hvalue'
  rw [some.inj hvalue']

/-- **Streaming convergence.**  Whatever the clocks read and however writes and deliveries
    interleave, once every entry is delivered all nodes hold the greatest version of every key. -/
theorem mesh_converges (T : Topology Node Place K) (evs : List (MeshEvent Place K V))
    (hrun : Lib.RunAll (step T) (fun m ev => Legal T m ev ∧ Sound m ev) (init T) evs) :
    ∃ m, Lib.run (step T) (init T) evs = some m ∧ (Delivered T m → ∀ key, ∃ w,
      Lib.IsWinner versionRank none (T.offers m.log key) w ∧ ∀ n, m.held T n key = w) := by
  obtain ⟨m, hm, hinv⟩ := Lib.run_inv step_inv (init_inv T) hrun
  refine ⟨m, hm, fun hall key => ⟨_, Lib.offerAll_isWinner none _, fun n => ?_⟩⟩
  rw [hinv.winner n key]
  refine (Lib.offerAll_congr (fun v => (hinv.mem_offers_iff hall n key v).symm) ?_).symm
  exact hinv.rank_injective key

end MeshState

end Mesh

/-! ## §4 A mesh of two nodes -/

/-- Two nodes of one shard each, with hashes 1 and 2. -/
def Topology.pair : Topology Bool Bool Bool where
  node p := p
  home n _ := n
  node_home _ _ := rfl
  hash n := if n then 2 else 1
  hash_ne_zero := by decide
  hash_injective := by decide
  originHash n i := if xor n (i != 0) then 2 else 1
  originIdx n a := if n = a then 0 else 1
  registered := by decide
  self := by decide

namespace MeshState

/-- Node `true` writes a key at 5000 ms and node `false`, whose clock is behind, restores over it;
    both entries are delivered. -/
def restoreOver (cfg : TombstoneConfig) : List (MeshEvent Bool Bool ℕ) :=
  [.write true cfg (.set false 10) 5000, .deliver false cfg 0 1000,
    .write false cfg (.restoreReplace false 20) 1000, .deliver true cfg 1 5000]

/-- With tombstones the restore is above the value it replaces, everywhere. -/
theorem mesh_converges_restoreOver :
    ∃ m, Lib.run (step Topology.pair) (init Topology.pair) (restoreOver ⟨true, 8⟩) = some m ∧
      ∀ n, (m.held Topology.pair n false).map Prod.fst = some 20 := by
  obtain ⟨m, hm, hall⟩ := mesh_converges Topology.pair (restoreOver ⟨true, 8⟩) (by decide +kernel)
  have hdelivered : ∀ m ∈ Lib.run (step Topology.pair) (init Topology.pair)
      (restoreOver ⟨true, 8⟩), (∀ e ∈ m.log, ∀ n, n ≠ e.author → ∀ key,
        (lastWrite e.cmd.pairs key).isSome = true → e ∈ m.processed (Topology.pair.home n key)) ∧
      (m.held Topology.pair true false).map Prod.fst = some 20 := by
    decide +kernel
  obtain ⟨w, -, hw⟩ := hall (hdelivered m hm).1 false
  exact ⟨m, hm, fun n => by rw [hw n, ← hw true, (hdelivered m hm).2]⟩

/-- Without tombstones `RESTORE REPLACE` forgets the stamp of the value it deletes and mints below
    it: the other node drops the restored value for good. -/
theorem restore_without_tombstones_diverges :
    Lib.RunAll (step Topology.pair) (Legal Topology.pair) (init Topology.pair)
        (restoreOver ⟨false, 8⟩) ∧
      ∃ m, Lib.run (step Topology.pair) (init Topology.pair) (restoreOver ⟨false, 8⟩) = some m ∧
        Delivered Topology.pair m ∧
        m.held Topology.pair false false = some (20, ⟨1000 <<< kCounterBits, 1⟩) ∧
        m.held Topology.pair true false = some (10, ⟨5000 <<< kCounterBits, 2⟩) := by
  refine ⟨by decide +kernel, ?_⟩
  have hsome : (Lib.run (step Topology.pair) (init Topology.pair)
      (restoreOver ⟨false, 8⟩)).isSome = true := by decide +kernel
  obtain ⟨m, hm⟩ := isSome_iff_exists.mp hsome
  have hend : ∀ m ∈ Lib.run (step Topology.pair) (init Topology.pair) (restoreOver ⟨false, 8⟩),
      (∀ e ∈ m.log, ∀ n, n ≠ e.author → ∀ key, (lastWrite e.cmd.pairs key).isSome = true →
        e ∈ m.processed (Topology.pair.home n key)) ∧
      m.held Topology.pair false false = some (20, ⟨1000 <<< kCounterBits, 1⟩) ∧
      m.held Topology.pair true false = some (10, ⟨5000 <<< kCounterBits, 2⟩) := by
    decide +kernel
  exact ⟨m, hm, hend m hm⟩

end MeshState

end Drakeydb.Mvcc
