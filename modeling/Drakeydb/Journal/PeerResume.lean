import Drakeydb.Journal.PeerLink
import Drakeydb.Journal.RingBuffer

/-!
# Resuming a Peer Link

The invariant of a link over whole runs, and what it says about the replica's position as a place to
resume from.
-/

namespace Drakeydb.Journal

open List JournalStreamer Bool

namespace Link

/-! ## §1 The invariant of a run -/

/-- The invariant of a run: the ring buffer holds the last of the history, and `q` is the position
at the end of the stream. -/
structure Inv (l : Link) : Prop where
  journal : Keeps l.journal 1 l.history
  peer : l.streamer.config.peerMode = true
  session : l.session.Tracking
  one_le : 1 ≤ l.session.journalRecExecuted
  replica : l.replica = l.session.readAll l.reads
  next : l.streamer.running = true → l.streamer.registered = true →
    l.streamer.next = l.journal.lsn
  stream : ∃ q, Accounts l.history l.session.journalRecExecuted (l.reads.map Prod.fst ++ l.wire) q ∧
    l.streamer.lastLsnWriten + 1 ≤ q ∧ Resolved l.history q l.streamer.next

variable {j : JournalSlice} {h : List JournalItem}

/-- A position that a partial sync accepts is not beyond the next LSN. -/
theorem le_of_isLSNInPartialSyncBuffer (hj : Keeps j 1 h) {lsn : ℕ}
    (hin : j.isLSNInPartialSyncBuffer lsn = true) : lsn ≤ h.length + 1 := by
  rw [JournalSlice.isLSNInPartialSyncBuffer, or_eq_true, decide_eq_true_eq] at hin
  have hlsn := hj.lsn
  rcases hin with hin | hin
  · omega
  · obtain ⟨-, hlt, -⟩ := hj.getEntryMeta hin
    omega

variable {l : Link}

section

variable (hl : Inv l)
include hl

theorem append_inv (entry : RecordedEntry) (now : ℤ) : Inv (l.step (.append entry now)) := by
  have hjournal := hl.journal.push entry.1
  have hlsn := hl.journal.lsn
  obtain ⟨q, hacc, hlast, hres⟩ := hl.stream
  have hacc' := hacc.append [l.journal.itemOf entry.1]
  have hres' := hres.append [l.journal.itemOf entry.1]
  rw [step]
  by_cases hon : l.streamer.registered = true ∧ l.streamer.running = true
  · -- a live entry: it is the next one for the streamer
    obtain ⟨hreg, hrun⟩ := hon
    have hnext : l.streamer.next = l.journal.lsn := hl.next hrun hreg
    have hitem : (l.history ++ [l.journal.itemOf entry.1])[l.journal.lsn - 1]? =
        some (l.journal.itemOf entry.1) := by
      rw [hlsn, Nat.add_sub_cancel_left, getElem?_concat_length]
    rw [hnext] at hres'
    obtain ⟨q', hout, hlast', hres'', hcfg, hrun', hreg'⟩ :=
      consumeJournalChange_spec now hl.peer hrun (by omega) hitem rfl hlast hres'
    have hlive : l.streamer.onAppend (l.journal.itemOf entry.1) now =
        ({ (l.streamer.consumeJournalChange (l.journal.itemOf entry.1) now).1 with
          next := l.journal.lsn + 1 },
        (l.streamer.consumeJournalChange (l.journal.itemOf entry.1) now).2) := by
      simp [onAppend, hreg, hrun, hnext]
    rw [hlive]
    refine ⟨hjournal, hcfg ▸ hl.peer, hl.session, hl.one_le, hl.replica, fun _ _ => rfl, q', ?_,
      hlast', hres''⟩
    rw [← append_assoc]
    exact hacc'.trans hout
  · rw [onAppend_of_idle _ _ hon]
    refine ⟨hjournal, hl.peer, hl.session, hl.one_le, hl.replica, ?_, q,
      by simpa using hacc', hlast, hres'⟩
    exact fun hrun hreg => absurd ⟨hreg, hrun⟩ hon

theorem catchUp_inv (now : ℤ) : Inv (l.step (.catchUp now)) := by
  obtain ⟨q, hacc, hlast, hres⟩ := hl.stream
  have hsame : Inv { l with streamer := l.streamer, wire := l.wire ++ [] } := by
    rw [append_nil]
    exact hl
  rw [step, maybePartialStreamLSNs]
  cases hidle : l.streamer.registered || !l.streamer.running with
  | true => exact hsame
  | false =>
    obtain ⟨hreg, hrun⟩ := or_eq_false_iff.mp hidle
    have hrun' : l.streamer.running = true := by simpa using hrun
    cases hin : l.journal.isLSNInBuffer l.streamer.next with
    | true =>
      obtain ⟨hone, -, item, hmeta, hitem⟩ := hl.journal.getEntryMeta hin
      have hitem_lsn : item.lsn = l.streamer.next := by
        have := hl.journal.item_lsn _ item hitem
        omega
      obtain ⟨q', hout, hlast', hres', hcfg, hrun'', hreg'⟩ :=
        consumeJournalChange_spec now hl.peer hrun' hone hitem hitem_lsn hlast hres
      simp only [if_true, hmeta]
      refine ⟨hl.journal, hcfg ▸ hl.peer, hl.session, hl.one_le, hl.replica, ?_, q', ?_,
        hlast', hres'⟩
      · intro _ hreg''
        exact absurd (hreg'.symm.trans hreg'') (by simp [hreg])
      · rw [← append_assoc]
        exact hacc.trans hout
    | false =>
      simp only [false_eq_true, if_false]
      by_cases hend : l.journal.lsn = l.streamer.next
      · -- everything sent: register for the live entries
        rw [if_neg (by simpa using hend)]
        refine ⟨hl.journal, hl.peer, hl.session, hl.one_le, hl.replica, fun _ _ => hend.symm, q, ?_,
          hlast, hres⟩
        simpa using hacc
      · -- the next entry was evicted: the stream stops here
        rw [if_pos hend]
        refine ⟨hl.journal, hl.peer, hl.session, hl.one_le, hl.replica, ?_, q, ?_, hlast, hres⟩
        · intro hrun'' _
          exact absurd hrun'' (by simp)
        · simpa using hacc

theorem deliver_inv (isSuccessful : Bool) : Inv (l.step (.deliver isSuccessful)) := by
  rw [step]
  cases hwire : l.wire with
  | nil => exact hl
  | cons item rest =>
    refine ⟨hl.journal, hl.peer, hl.session, hl.one_le, ?_, hl.next, ?_⟩
    · rw [hl.replica, DflyShardReplica.readAll, DflyShardReplica.readAll, foldl_append]
      rfl
    · simpa [hwire] using hl.stream

theorem Inv.replica_of_session {P : DflyShardReplica → Prop}
    (hstep : ∀ r item isSuccessful, P r → P (r.stableSyncRead item isSuccessful))
    (hsession : P l.session) :
    P l.replica := by
  rw [hl.replica]
  exact foldlRecOn l.reads _ hsession (fun r hr read _ => hstep r read.1 read.2 hr)

/-- A position below the first LSN does not exist, and peer mode is for ever. -/
theorem Inv.replica_basic : 1 ≤ l.replica.journalRecExecuted ∧ l.replica.peerMode = true := by
  refine hl.replica_of_session (P := fun r => 1 ≤ r.journalRecExecuted ∧ r.peerMode = true) ?_
    ⟨hl.one_le, hl.session.peer⟩
  rintro r item isSuccessful ⟨hone, hpeer⟩
  cases item with
  | lsn n =>
    rw [DflyShardReplica.stableSyncRead, DflyShardReplica.adoptAuthoritativeLsn]
    split_ifs <;> simp [hone, hpeer]
  | entry item =>
    rw [DflyShardReplica.stableSyncRead]
    split_ifs <;> simp [DflyShardReplica.countExecuted, hone, hpeer]

theorem reconnect_inv : Inv (l.step .reconnect) := by
  rw [step]
  cases hin : l.journal.isLSNInPartialSyncBuffer l.replica.journalRecExecuted with
  | false => exact hl
  | true =>
    obtain ⟨hone, hpeer⟩ := hl.replica_basic
    have hle := le_of_isLSNInPartialSyncBuffer hl.journal hin
    have hpos : l.replica.journalRecExecuted > 0 := hone
    refine ⟨hl.journal, hl.peer, ⟨hpeer, rfl⟩, hone, rfl, ?_, l.replica.journalRecExecuted,
      rfl, ?_, ?_⟩
    · intro _ hreg
      have hzero : l.replica.journalRecExecuted = 0 := by
        simpa [start] using hreg
      omega
    · show (if _ then _ else _) + 1 ≤ _
      rw [if_pos hpos]
      exact (Nat.sub_add_cancel hone).le
    · show Resolved _ _ (if _ then _ else _)
      rw [if_pos hpos]
      exact Resolved.refl hle

theorem stop_inv : Inv (l.step .stop) :=
  ⟨hl.journal, hl.peer, hl.session, hl.one_le, hl.replica, fun hrun _ =>
    absurd hrun false_ne_true, hl.stream⟩

theorem evict_inv (count : ℕ) : Inv (l.step (.evict count)) :=
  ⟨hl.journal.cleanEntries count, hl.peer, hl.session, hl.one_le, hl.replica, hl.next, hl.stream⟩

/-- Every event keeps the invariant, failed applies included. -/
theorem step_inv (ev : LinkEvent) : Inv (l.step ev) := by
  cases ev with
  | append entry now => exact append_inv hl entry now
  | evict count => exact evict_inv hl count
  | catchUp now => exact catchUp_inv hl now
  | stop => exact stop_inv hl
  | deliver isSuccessful => exact deliver_inv hl isSuccessful
  | reconnect => exact reconnect_inv hl

end

theorem record_all_inv (entries : List RecordedEntry) :
    Keeps (entries.foldl record (⟨1, []⟩, [])).1 1 (entries.foldl record (⟨1, []⟩, [])).2 ∧
      (entries.foldl record (⟨1, []⟩, [])).2.length = entries.length := by
  induction entries using reverseRecOn with
  | nil => exact ⟨⟨rfl, by simp, 0, rfl⟩, rfl⟩
  | append_singleton entries entry ih =>
    rw [foldl_append]
    exact ⟨ih.1.push entry.1, by simp [record, ih.2]⟩

variable {config : StreamerConfig}

theorem connect_inv (hpeer : config.peerMode = true)
    (entries : List RecordedEntry) : Inv (connect config entries) := by
  obtain ⟨hj, -⟩ := record_all_inv entries
  have hlsn := hj.lsn
  refine ⟨hj, hpeer, ⟨hpeer, rfl⟩, ?_, rfl, fun _ _ => rfl, _, rfl, ?_,
    Resolved.refl (hlsn.trans (Nat.add_comm ..)).le⟩
  · show 1 ≤ (entries.foldl record (⟨1, []⟩, [])).1.lsn
    omega
  · show 0 + 1 ≤ (entries.foldl record (⟨1, []⟩, [])).1.lsn
    omega

theorem run_inv (hpeer : config.peerMode = true) (entries : List RecordedEntry)
    (evs : List LinkEvent) :
    Inv ((connect config entries).run evs) :=
  foldlRecOn evs _ (connect_inv hpeer entries) (fun _ hl ev _ => step_inv hl ev)

/-! ## §2 Exactly once -/

/-- The event does not fail an apply. -/
def Succeeds : LinkEvent → Prop
  | .deliver isSuccessful => isSuccessful = true
  | _ => True

/-- What a run without failed applies keeps besides the invariant. -/
structure Exact (base : ℕ) (l : Link) : Prop where
  inv : Inv l
  ok : ∀ read ∈ l.reads, failed read = false
  session : l.session.CaughtUp l.history base

variable {base : ℕ}

theorem Exact.tracking (hl : Exact base l) :
    l.replica.Tracking ∧ l.replica.CaughtUp l.history base ∧ ∃ q,
      Accounts l.history l.replica.journalRecExecuted l.wire q ∧
        Resolved l.history q l.streamer.next := by
  obtain ⟨q, hacc, -, hres⟩ := hl.inv.stream
  obtain ⟨htrack, hwire, hcaught⟩ :=
    DflyShardReplica.readAll_of_not_failed hl.inv.session hacc hl.ok
  rw [hl.inv.replica]
  exact ⟨htrack, hcaught base hl.session, q, hwire, hres⟩

theorem Exact.session_le (hl : Exact base l) :
    l.session.journalRecExecuted ≤ l.history.length + 1 := by
  obtain ⟨q, hacc, -, hres⟩ := hl.inv.stream
  exact hacc.le.trans (hres.le.trans hres.bound)

theorem step_exact (hl : Exact base l) {ev : LinkEvent} (hev : Succeeds ev) :
    Exact base (l.step ev) := by
  refine ⟨step_inv hl.inv ev, ?_, ?_⟩
  · -- no failed read: only a delivery adds one
    cases ev with
    | deliver isSuccessful =>
      have hdone : isSuccessful = true := hev
      rw [step]
      cases hwire : l.wire with
      | nil => exact hl.ok
      | cons item rest =>
        intro read hread
        rcases mem_append.mp hread with hread | hread
        · exact hl.ok read hread
        · rw [mem_singleton.mp hread, hdone]
          cases item with
          | lsn n => rfl
          | entry item => simp [failed, counts]
    | reconnect =>
      rw [step]
      split
      · exact forall_mem_nil _
      · exact hl.ok
    | append entry now => exact hl.ok
    | evict count => exact hl.ok
    | catchUp now => exact hl.ok
    | stop => exact hl.ok
  · -- the start of the session: a new entry is above it, a reconnect moves it to the replica
    cases ev with
    | append entry now =>
      refine ⟨hl.session.one_le, hl.session.le, ?_⟩
      show l.session.executed =
        (between (l.history ++ [_]) base l.session.journalRecExecuted).filter _
      rw [between_append hl.session_le, ← hl.session.executed]
    | reconnect =>
      obtain ⟨-, hcaught, -⟩ := hl.tracking
      rw [step]
      split
      · exact ⟨hcaught.one_le, hcaught.le, hcaught.executed⟩
      · exact hl.session
    | deliver isSuccessful =>
      rw [step]
      cases hwire : l.wire with
      | nil => exact hl.session
      | cons item rest => exact hl.session
    | evict count => exact hl.session
    | catchUp now => exact hl.session
    | stop => exact hl.session

theorem connect_exact (hpeer : config.peerMode = true)
    (entries : List RecordedEntry) : Exact (entries.length + 1) (connect config entries) := by
  obtain ⟨hj, hlen⟩ := record_all_inv entries
  have hbase : (connect config entries).session.journalRecExecuted = entries.length + 1 := by
    rw [← hlen]
    exact hj.lsn.trans (Nat.add_comm ..)
  refine ⟨connect_inv hpeer entries, forall_mem_nil _, Nat.le_add_left 1 _, hbase.ge, ?_⟩
  rw [hbase, between, drop_eq_nil_of_le (by rw [length_take]; omega)]
  rfl

/-- **Catching up**: a streamer that starts within the ring buffer reaches the end of it, while
nothing is recorded or evicted. -/
theorem catchUp_reaches_end (hl : Inv l) (hrun : l.streamer.running = true)
    (hreg : l.streamer.registered = false)
    (hin : l.journal.isLSNInPartialSyncBuffer l.streamer.next = true) :
    ∃ n, (l.run (replicate n (.catchUp 0))).streamer.next = l.journal.lsn := by
  -- by induction on how far the streamer is from the end
  obtain ⟨d, hd⟩ : ∃ d, l.journal.lsn = l.streamer.next + d := by
    have hle := le_of_isLSNInPartialSyncBuffer hl.journal hin
    have hlsn := hl.journal.lsn
    exact ⟨l.journal.lsn - l.streamer.next, by omega⟩
  induction d generalizing l with
  | zero => exact ⟨0, hd.symm⟩
  | succ d ih =>
    have hbuffer : l.journal.isLSNInBuffer l.streamer.next = true := by
      rw [JournalSlice.isLSNInPartialSyncBuffer, or_eq_true, decide_eq_true_eq] at hin
      exact hin.resolve_left (by omega)
    obtain ⟨hone, -, item, hmeta, hitem⟩ := hl.journal.getEntryMeta hbuffer
    have hitem_lsn : item.lsn = l.streamer.next := by
      have := hl.journal.item_lsn _ item hitem
      omega
    obtain ⟨q, -, hlast, hres⟩ := hl.stream
    obtain ⟨-, -, -, -, -, hrun', hreg'⟩ :=
      consumeJournalChange_spec 0 hl.peer hrun hone hitem hitem_lsn hlast hres
    have hstep : l.step (.catchUp 0) = { l with
        streamer := { (l.streamer.consumeJournalChange item 0).1 with next := l.streamer.next + 1 }
        wire := l.wire ++ (l.streamer.consumeJournalChange item 0).2 } := by
      simp [step, maybePartialStreamLSNs, hrun, hreg, hbuffer, hmeta]
    have hin' : l.journal.isLSNInPartialSyncBuffer (l.streamer.next + 1) = true := by
      rw [JournalSlice.isLSNInPartialSyncBuffer, or_eq_true, decide_eq_true_eq,
        hl.journal.isLSNInBuffer_iff]
      have := (hl.journal.isLSNInBuffer_iff.mp hbuffer).1
      omega
    have hinv := catchUp_inv hl 0
    rw [hstep] at hinv
    obtain ⟨n, hn⟩ := ih hinv (hrun'.trans hrun) (hreg'.trans hreg) hin' (by dsimp only; omega)
    rw [← hstep] at hn
    exact ⟨n + 1, hn⟩

/-- **Exactly once over disconnects.**  When every apply succeeds, the replica has executed exactly
the forwarded entries with an LSN below its position, once each and in LSN order, whatever was
filtered, whenever markers were due and wherever the stream was cut and resumed. A replica that has
read everything of a streamer that is up to date has executed all of them, and a streamer that was
resumed within the ring buffer gets up to date. -/
theorem peer_resume_exactly_once (config : StreamerConfig) (entries : List RecordedEntry)
    (evs : List LinkEvent) (hpeer : config.peerMode = true) (hok : ∀ ev ∈ evs, Succeeds ev) :
    let l := (connect config entries).run evs
    let start := entries.length + 1
    let position := l.replica.journalRecExecuted
    (∀ i item, l.history[i]? = some item → item.lsn = i + 1) ∧
      start ≤ position ∧ position ≤ l.history.length + 1 ∧
      l.replica.executed = (between l.history start position).filter passesPeerEchoFilter ∧
      (l.wire = [] → l.streamer.next = l.journal.lsn → l.replica.executed =
          (between l.history start (l.history.length + 1)).filter passesPeerEchoFilter) ∧
      (l.streamer.running = true → l.streamer.registered = false →
        l.journal.isLSNInPartialSyncBuffer l.streamer.next = true →
        ∃ n, (l.run (replicate n (.catchUp 0))).streamer.next = l.journal.lsn) := by
  intro l start position
  have hl : Exact start l :=
    foldlRecOn evs _ (connect_exact hpeer entries) (fun _ hl ev hev => step_exact hl (hok ev hev))
  obtain ⟨-, hcaught, q, hacc, hres⟩ := hl.tracking
  have hbound : position ≤ l.history.length + 1 := hacc.le.trans (hres.le.trans hres.bound)
  refine ⟨fun i item hi => (hl.inv.journal.item_lsn i item hi).trans (Nat.add_comm ..), hcaught.le,
    hbound, hcaught.executed, fun hwire hnext => ?_, catchUp_reaches_end hl.inv⟩
  -- at the end of the stream nothing forwarded is left above the position
  rw [hwire] at hacc
  have hpos : position = q := hacc
  rw [hnext, hl.inv.journal.lsn, ← hpos, Nat.add_comm] at hres
  rw [hcaught.executed, hres.filter_between hcaught.one_le hcaught.le]

/-- A peer link with the production throttle. -/
def peerConfig : StreamerConfig := ⟨true, 0, true, 3⟩

/-- A command of this node. -/
def ownWrite : RecordedEntry := ⟨{ opcode := .command, payload := ⟨[83, 69, 84], []⟩ }, rfl⟩

/-- A command applied here on behalf of another node. -/
def foreignWrite : RecordedEntry :=
  ⟨{ opcode := .command, originIdx := 1, payload := ⟨[83, 69, 84], []⟩ }, rfl⟩

/-- An entry is read, the link breaks before the rest is, and the replica catches up. -/
def cutAndResume : List LinkEvent :=
  [.append ownWrite 0, .append foreignWrite 0, .append ownWrite 0, .deliver true, .reconnect,
    .catchUp 0, .catchUp 0, .catchUp 0, .deliver true, .deliver true]

theorem peer_resume_exactly_once_cutAndResume :
    ((connect peerConfig []).run cutAndResume).replica.executed.map JournalItem.lsn = [1, 3] := by
  have hok : ∀ ev ∈ cutAndResume, Succeeds ev := by simp [cutAndResume, Succeeds]
  obtain ⟨-, -, -, -, hall, -⟩ := peer_resume_exactly_once peerConfig [] cutAndResume rfl hok
  rw [hall (by decide) (by decide)]
  decide

/-! ## §3 After a failed apply -/

/-- **Position after a failed apply.**  The position moves past the failed entry by the number of
    reads after it that count, so it still asks for the entry exactly when there are none. -/
theorem failed_apply_position (config : StreamerConfig) (entries : List RecordedEntry)
    (evs : List LinkEvent) (hpeer : config.peerMode = true) (before after : List (WireItem × Bool))
    (item : JournalItem) (isSuccessful : Bool)
    (hreads : ((connect config entries).run evs).reads = before ++
      (.entry item, isSuccessful) :: after)
    (hbefore : ∀ read ∈ before, failed read = false)
    (hfirst : failed (.entry item, isSuccessful) = true) :
    ((connect config entries).run evs).replica.journalRecExecuted ≤ item.lsn ↔
      ∀ read ∈ after, counts read = false := by
  have hl := run_inv hpeer entries evs
  generalize (connect config entries).run evs = l at hl hreads
  obtain ⟨q, hacc, -, -⟩ := hl.stream
  -- up to the failed entry the replica follows the stream, so its position is the entry's LSN
  rw [hreads, map_append, append_assoc] at hacc
  obtain ⟨htrack, hrest, -⟩ := DflyShardReplica.readAll_of_not_failed hl.session hacc hbefore
  obtain ⟨hone, hitem, -, -⟩ := hrest
  have hlsn := hl.journal.item_lsn _ item hitem
  -- from there on the position only counts
  have hreplica : l.replica = ((l.session.readAll before).stableSyncRead (.entry item)
      isSuccessful).readAll after := by
    rw [hl.replica, hreads, DflyShardReplica.readAll, foldl_append]
    rfl
  have hc : counts (.entry item, isSuccessful) = false := by
    simpa [failed] using hfirst
  rw [DflyShardReplica.stableSyncRead_of_failed htrack.peer hc] at hreplica
  have hpos : l.replica.journalRecExecuted = item.lsn + after.countP counts := by
    rw [hreplica]
    refine (DflyShardReplica.readAll_of_applyFailed ?_ rfl).trans ?_
    · exact htrack.peer
    · show (l.session.readAll before).journalRecExecuted + _ = _
      omega
  constructor
  · intro hle read hread
    have hzero : after.countP counts = 0 := by omega
    simpa using countP_eq_zero.mp hzero read hread
  · intro hnone
    have hzero : after.countP counts = 0 :=
      countP_eq_zero.mpr fun read hread => by simp [hnone read hread]
    omega

/-- Two commands arrive and the first one's apply fails. -/
def failThenMarker : List LinkEvent :=
  [.append ownWrite 10, .append ownWrite 10, .deliver false, .deliver true]

/-- A heartbeat after a failure does not move the position. -/
theorem failed_apply_position_failThenMarker :
    ((connect peerConfig []).run failThenMarker).replica.journalRecExecuted ≤ 1 := by
  have hitem : ∃ item : JournalItem, item.lsn = 1 ∧
      ((connect peerConfig []).run failThenMarker).reads =
        [] ++ (.entry item, false) :: [(.lsn 1, true)] ∧
      failed (.entry item, false) = true :=
    ⟨_, rfl, rfl, rfl⟩
  obtain ⟨item, hlsn, hreads, hfail⟩ := hitem
  have hpos := (failed_apply_position peerConfig [] failThenMarker rfl [] _ item false hreads
    (by simp) hfail).mpr (by simp [counts])
  exact hpos.trans hlsn.le

/-- A command applied after the failure takes the position past the failed entry: the resume
    delivers the second entry again, and the first one is never executed. -/
theorem failed_apply_skipped :
    let evs : List LinkEvent :=
  [.append ownWrite 0, .append ownWrite 0, .deliver false, .deliver true]
    let l := (connect peerConfig []).run evs
    (∃ item isSuccessful, l.reads.find? failed = some (.entry item, isSuccessful) ∧
        item.lsn < l.replica.journalRecExecuted) ∧
      let l' := l.run [.reconnect, .catchUp 0, .catchUp 0, .deliver true]
      l'.wire = [] ∧ l'.streamer.registered = true ∧
        l'.replica.executed.map JournalItem.lsn = [2, 2] := by
  refine ⟨⟨_, _, rfl, by decide⟩, ?_⟩
  decide

end Link

end Drakeydb.Journal
