import Mathlib.Data.List.Induction
import Mathlib.Order.Nat
import Drakeydb.Journal.Streamer

/-!
# A Peer Link over Disconnects and Partial Resumes

The source records entries and evicts old ones, the streamer catches up from the ring buffer or
forwards live entries, the replica reads the stream item by item, and at any item boundary the link
may break and resume from the replica's position.

`history` (everything ever recorded), `session` (the replica when the current stream started) and
`reads` (what it has read since, with the outcome of each apply) are ghosts.
-/

namespace Drakeydb.Journal

open List JournalStreamer

/-! ## §1 The link -/

/-- An entry a journal records. -/
abbrev RecordedEntry := { entry : Entry // entry.opcode.recorded = true }

/-- Both ends of a peer link. -/
structure Link where
  journal : JournalSlice
  history : List JournalItem
  streamer : JournalStreamer
  wire : List WireItem
  replica : DflyShardReplica
  session : DflyShardReplica
  reads : List (WireItem × Bool)

/-- What can happen to a link. -/
inductive LinkEvent where
  /-- an entry is recorded -/
  | append (entry : RecordedEntry) (now : ℤ)
  /-- the ring buffer forgets entries -/
  | evict (count : ℕ)
  /-- one turn of the catch-up loop -/
  | catchUp (now : ℤ)
  /-- the source's context is cancelled -/
  | stop
  /-- the replica reads the next item; a command's apply succeeds or not -/
  | deliver (isSuccessful : Bool)
  /-- the link breaks and the replica asks for a partial sync -/
  | reconnect

namespace Link

/-- Record an entry, with no consumer registered. -/
def record (j : JournalSlice × List JournalItem) (entry : RecordedEntry) :
    JournalSlice × List JournalItem :=
  (j.1.push (j.1.itemOf entry.1), j.2 ++ [j.1.itemOf entry.1])

/-- A link after its first full sync: the source has recorded `entries` by then, the streamer is
    registered, and the replica's position is the journal offset of the full sync. -/
def connect (config : StreamerConfig) (entries : List RecordedEntry) : Link :=
  let j := entries.foldl record (⟨1, []⟩, [])
  let replica : DflyShardReplica := ⟨config.peerMode, j.1.lsn, false, []⟩
  { journal := j.1
    history := j.2
    streamer := JournalStreamer.start { config with startPartialSyncAt := 0 } j.1.lsn
    wire := []
    replica := replica
    session := replica
    reads := [] }

def step (l : Link) : LinkEvent → Link
  | .append entry now =>
    let item := l.journal.itemOf entry.1
    let (s, out) := l.streamer.onAppend item now
    { l with
      journal := l.journal.push item
      history := l.history ++ [item]
      streamer := s
      wire := l.wire ++ out }
  | .evict count => { l with journal := l.journal.cleanEntries count }
  | .catchUp now =>
    let (s, out) := l.streamer.maybePartialStreamLSNs l.journal now
    { l with streamer := s, wire := l.wire ++ out }
  | .stop => { l with streamer := { l.streamer with running := false } }
  | .deliver isSuccessful =>
    match l.wire with
    | [] => l
    | item :: rest =>
      { l with
        wire := rest
        replica := l.replica.stableSyncRead item isSuccessful
        reads := l.reads ++ [(item, isSuccessful)] }
  | .reconnect =>
    -- what was on the wire is lost; a new flow object starts at the old one's position
    if l.journal.isLSNInPartialSyncBuffer l.replica.journalRecExecuted then
      let replica := { l.replica with applyFailed := false }
      { l with
        streamer := JournalStreamer.start
          { l.streamer.config with startPartialSyncAt := l.replica.journalRecExecuted }
          l.journal.lsn
        wire := []
        replica := replica
        session := replica
        reads := [] }
    else l

def run (l : Link) (evs : List LinkEvent) : Link := evs.foldl step l

end Link

/-! ## §2 Streams that account for every LSN -/

/-- Entries with an LSN from `a` up to but not including `b`. -/
def between (h : List JournalItem) (a b : ℕ) : List JournalItem := (h.take (b - 1)).drop (a - 1)

/-- No entry with an LSN from `a` up to but not including `b` is forwarded. -/
structure Resolved (h : List JournalItem) (a b : ℕ) : Prop where
  le : a ≤ b
  bound : b ≤ h.length + 1
  dropped : ∀ i item, a ≤ i + 1 → i + 1 < b → h[i]? = some item → passesPeerEchoFilter item = false

/-- Read from position `p`, the stream takes a replica to position `q`, passing every LSN on the
    way either as a forwarded entry or under a marker. -/
def Accounts (h : List JournalItem) : ℕ → List WireItem → ℕ → Prop
  | p, [], q => p = q
  | p, .lsn n :: w, q => Resolved h p (n + 1) ∧ Accounts h (n + 1) w q
  | p, .entry item :: w, q =>
    1 ≤ p ∧ h[p - 1]? = some item ∧ passesPeerEchoFilter item = true ∧ Accounts h (p + 1) w q

section Accounts

variable {h : List JournalItem} {a b c p q r : ℕ}

theorem Resolved.refl (hb : a ≤ h.length + 1) : Resolved h a a :=
  ⟨le_rfl, hb, fun _ _ hle hlt => absurd hlt (not_lt.mpr hle)⟩

theorem Resolved.trans (hab : Resolved h a b) (hbc : Resolved h b c) : Resolved h a c := by
  refine ⟨hab.le.trans hbc.le, hbc.bound, fun i item hle hlt hi => ?_⟩
  by_cases hib : i + 1 < b
  · exact hab.dropped i item hle hib hi
  · exact hbc.dropped i item (not_lt.mp hib) hlt hi

theorem Resolved.append (hab : Resolved h a b) (h' : List JournalItem) :
    Resolved (h ++ h') a b := by
  obtain ⟨hle, hbound, hdropped⟩ := hab
  refine ⟨hle, by rw [length_append]; omega, fun i item hia hib hi => ?_⟩
  rw [getElem?_append_left (by omega)] at hi
  exact hdropped i item hia hib hi

variable {item : JournalItem}

theorem Resolved.succ (hab : Resolved h a b) (hb : 1 ≤ b) (hitem : h[b - 1]? = some item)
    (hpass : passesPeerEchoFilter item = false) : Resolved h a (b + 1) := by
  have hlt : b - 1 < h.length := (List.getElem?_eq_some_iff.mp hitem).1
  refine hab.trans ⟨by omega, by omega, fun i other hia hib hi => ?_⟩
  have hib' : i = b - 1 := by omega
  rw [hib', hitem] at hi
  rwa [← Option.some.inj hi]

variable {w : List WireItem}

section

variable (hw : Accounts h p w q)
include hw

theorem Accounts.trans {w' : List WireItem} (hw' : Accounts h q w' r) :
    Accounts h p (w ++ w') r := by
  induction w generalizing p with
  | nil =>
    obtain rfl : p = q := hw
    exact hw'
  | cons item w ih =>
    cases item with
    | lsn n => exact ⟨hw.1, ih hw.2⟩
    | entry item => exact ⟨hw.1, hw.2.1, hw.2.2.1, ih hw.2.2.2⟩

theorem Accounts.le : p ≤ q := by
  induction w generalizing p with
  | nil => exact Nat.le_of_eq hw
  | cons item w ih =>
    cases item with
    | lsn n => exact hw.1.le.trans (ih hw.2)
    | entry item => exact (Nat.le_succ p).trans (ih hw.2.2.2)

theorem Accounts.append (h' : List JournalItem) : Accounts (h ++ h') p w q := by
  induction w generalizing p with
  | nil => exact hw
  | cons item w ih =>
    cases item with
    | lsn n => exact ⟨hw.1.append h', ih hw.2⟩
    | entry item =>
      have hlt : p - 1 < h.length := (List.getElem?_eq_some_iff.mp hw.2.1).1
      refine ⟨hw.1, ?_, hw.2.2.1, ih hw.2.2.2⟩
      rw [getElem?_append_left hlt]
      exact hw.2.1

end

theorem between_append (hb : b ≤ h.length + 1) (h' : List JournalItem) :
    between (h ++ h') a b = between h a b := by
  rw [between, between, take_append_of_le_length (by omega)]

theorem between_succ (ha : 1 ≤ a) (hab : a ≤ b) (hitem : h[b - 1]? = some item) :
    between h a (b + 1) = between h a b ++ [item] := by
  have hlt : b - 1 < h.length := (List.getElem?_eq_some_iff.mp hitem).1
  have htake : h.take (b + 1 - 1) = h.take (b - 1) ++ [item] := by
    have hb : b + 1 - 1 = b - 1 + 1 := by omega
    rw [hb, take_add_one, hitem]
    rfl
  rw [between, htake, drop_append_of_le_length (by rw [length_take]; omega), between]

/-- Entries that are not forwarded do not change what has been forwarded. -/
theorem Resolved.filter_between (hbc : Resolved h b c) (ha : 1 ≤ a) (hab : a ≤ b) :
    (between h a c).filter passesPeerEchoFilter = (between h a b).filter passesPeerEchoFilter := by
  obtain ⟨d, rfl⟩ := Nat.exists_eq_add_of_le hbc.le
  induction d with
  | zero => rfl
  | succ d ih =>
    have hbound := hbc.bound
    have hlt : b + d - 1 < h.length := by omega
    have hitem : h[b + d - 1]? = some h[b + d - 1] := getElem?_eq_getElem hlt
    have hdrop : passesPeerEchoFilter h[b + d - 1] = false :=
      hbc.dropped (b + d - 1) _ (by omega) (by omega) hitem
    have hshort : Resolved h b (b + d) :=
      ⟨by omega, by omega, fun i item hle hlt hi => hbc.dropped i item hle (by omega) hi⟩
    rw [← Nat.add_assoc, between_succ ha (by omega) hitem, filter_append, ih hshort]
    simp [hdrop]

end Accounts

/-! ## §3 What the streamer writes -/

variable {s : JournalStreamer}

/-- Consuming an entry continues the stream by that entry, or resolves it, whether or not a marker
    is due. -/
theorem JournalStreamer.consumeJournalChange_spec {h : List JournalItem}
    {item : JournalItem} {n q : ℕ}
    (now : ℤ) (hpeer : s.config.peerMode = true) (hrun : s.running = true) (hn : 1 ≤ n)
    (hitem : h[n - 1]? = some item) (hlsn : item.lsn = n) (hlast : s.lastLsnWriten + 1 ≤ q)
    (hres : Resolved h q n) :
    ∃ q', Accounts h q (s.consumeJournalChange item now).2 q' ∧
      (s.consumeJournalChange item now).1.lastLsnWriten + 1 ≤ q' ∧ Resolved h q' (n + 1) ∧
      (s.consumeJournalChange item now).1.config = s.config ∧
      (s.consumeJournalChange item now).1.running = s.running ∧
      (s.consumeJournalChange item now).1.registered = s.registered := by
  subst hlsn
  have hlt : item.lsn - 1 < h.length := (List.getElem?_eq_some_iff.mp hitem).1
  have hend : Resolved h (item.lsn + 1) (item.lsn + 1) := Resolved.refl (by omega)
  cases hpass : passesPeerEchoFilter item with
  | false =>
    have hsucc := hres.succ hn hitem hpass
    have hdrop : s.shouldWrite item = false := by
      simp [shouldWrite, hrun, hpeer, hpass]
    cases hdue : s.markerDue now with
    | false =>
      have hout : s.consumeJournalChange item now = (s, []) := by
        simp [consumeJournalChange, hdrop, hdue]
      rw [hout]
      exact ⟨q, rfl, hlast, hsucc, rfl, rfl, rfl⟩
    | true =>
      have hout : s.consumeJournalChange item now =
          ({ s with lastLsnTime := now, lastLsnWriten := item.lsn }, [.lsn item.lsn]) := by
        simp [consumeJournalChange, hdrop, hdue, hpeer, hrun]
      rw [hout]
      exact ⟨item.lsn + 1, ⟨hsucc, rfl⟩, le_rfl, hend, rfl, rfl, rfl⟩
  | true =>
    have hwrite : s.shouldWrite item = true := by
      simp [shouldWrite, hrun, hpeer, hpass]
    obtain ⟨gap, hgap⟩ : ∃ gap, gap = if s.config.peerMode &&
        decide (item.lsn ≠ s.lastLsnWriten + 1) then [WireItem.lsn (item.lsn - 1)] else [] :=
      ⟨_, rfl⟩
    -- the gap marker takes the position to this entry, or it is there already
    have hbefore : Accounts h q gap item.lsn := by
      by_cases hnext : item.lsn = s.lastLsnWriten + 1
      · have hq : q = item.lsn := le_antisymm hres.le (hnext ▸ hlast)
        have hnil : gap = [] := by simp [hgap, hnext]
        rw [hnil]
        exact hq
      · have hback : item.lsn - 1 + 1 = item.lsn := Nat.sub_add_cancel hn
        have hmark : gap = [.lsn (item.lsn - 1)] := by simp [hgap, hnext, hpeer]
        rw [hmark]
        exact ⟨by rw [hback]; exact hres, hback⟩
    have hentry : Accounts h item.lsn [.entry item] (item.lsn + 1) := ⟨hn, hitem, hpass, rfl⟩
    cases hdue : s.config.shouldSentLsn && s.markerDue now with
    | false =>
      have hout : s.consumeJournalChange item now =
          ({ s with lastLsnWriten := item.lsn }, gap ++ [.entry item]) := by
        simp [consumeJournalChange, hwrite, hdue, hgap]
      rw [hout]
      exact ⟨item.lsn + 1, hbefore.trans hentry, le_rfl, hend, rfl, rfl, rfl⟩
    | true =>
      have hout : s.consumeJournalChange item now =
          ({ s with lastLsnTime := now, lastLsnWriten := item.lsn },
            gap ++ [.entry item] ++ [.lsn item.lsn]) := by
        simp [consumeJournalChange, hwrite, hdue, hgap]
      rw [hout]
      exact ⟨item.lsn + 1, (hbefore.trans hentry).trans ⟨hend, rfl⟩, le_rfl, hend, rfl, rfl, rfl⟩

theorem JournalStreamer.consumeJournalChange_of_not_running (item : JournalItem) (now : ℤ)
    (hrun : s.running = false) : s.consumeJournalChange item now = (s, []) := by
  simp [consumeJournalChange, shouldWrite, hrun]

theorem JournalStreamer.onAppend_of_idle (item : JournalItem) (now : ℤ)
    (hidle : ¬ (s.registered = true ∧ s.running = true)) : s.onAppend item now = (s, []) := by
  rw [onAppend]
  split
  · rename_i hreg
    have hrun : s.running = false := by simpa [hreg] using hidle
    rw [consumeJournalChange_of_not_running _ _ hrun, if_neg (by simp [hrun])]
  · rfl

/-! ## §4 What the replica makes of it -/

/-- Does reading this item advance the count? -/
def counts : WireItem × Bool → Bool
  | (.lsn _, _) => false
  | (.entry item, isSuccessful) =>
    decide (item.opcode = .ping) || decide (item.opcode = .origin) || isSuccessful

/-- Was the item a command whose apply failed? -/
def failed : WireItem × Bool → Bool
  | (.lsn _, _) => false
  | (.entry item, isSuccessful) => !counts (.entry item, isSuccessful)

namespace DflyShardReplica

/-- Read a list of items. -/
def readAll (r : DflyShardReplica) (reads : List (WireItem × Bool)) : DflyShardReplica :=
  reads.foldl (fun r read => r.stableSyncRead read.1 read.2) r

variable {r : DflyShardReplica} {item : JournalItem} {isSuccessful : Bool}

theorem stableSyncRead_of_counts (hc : counts (.entry item, isSuccessful) = true) :
    r.stableSyncRead (.entry item) isSuccessful = r.countExecuted item := by
  simp only [counts, Bool.or_eq_true, decide_eq_true_eq] at hc
  rcases hc with (hc | hc) | hc <;> simp [stableSyncRead, hc]

theorem stableSyncRead_of_failed (hpeer : r.peerMode = true)
    (hc : counts (.entry item, isSuccessful) = false) :
    r.stableSyncRead (.entry item) isSuccessful = { r with applyFailed := true } := by
  simp only [counts, Bool.or_eq_false_iff, decide_eq_false_iff_not] at hc
  simp [stableSyncRead, hc, hpeer]

/-- A replica of a peer link that no failure has stopped. -/
structure Tracking (r : DflyShardReplica) : Prop where
  peer : r.peerMode = true
  ok : r.applyFailed = false

/-- The replica has executed exactly the forwarded entries between `base` and its position. -/
structure CaughtUp (h : List JournalItem) (base : ℕ) (r : DflyShardReplica) : Prop where
  one_le : 1 ≤ base
  le : base ≤ r.journalRecExecuted
  executed : r.executed = (between h base r.journalRecExecuted).filter passesPeerEchoFilter

variable {h : List JournalItem}

theorem CaughtUp.resolved {base n : ℕ} (hr : CaughtUp h base r)
    (hres : Resolved h r.journalRecExecuted n) :
    CaughtUp h base { r with journalRecExecuted := n } :=
  ⟨hr.one_le, hr.le.trans hres.le, hr.executed.trans (hres.filter_between hr.one_le hr.le).symm⟩

theorem CaughtUp.countExecuted {base : ℕ} (hr : CaughtUp h base r)
    (hitem : h[r.journalRecExecuted - 1]? = some item)
    (hpass : passesPeerEchoFilter item = true) : CaughtUp h base (r.countExecuted item) := by
  refine ⟨hr.one_le, Nat.le_succ_of_le hr.le, ?_⟩
  show r.executed ++ [item] = (between h base (r.journalRecExecuted + 1)).filter _
  rw [between_succ hr.one_le hr.le hitem, filter_append, ← hr.executed]
  simp [hpass]

variable {reads : List (WireItem × Bool)}

/-- A replica that reads such a stream without a failure executes what is forwarded, and its
position follows. -/
theorem readAll_of_not_failed {q : ℕ} {w : List WireItem} (hr : Tracking r)
    (hw : Accounts h r.journalRecExecuted (reads.map Prod.fst ++ w) q)
    (hok : ∀ read ∈ reads, failed read = false) :
    Tracking (r.readAll reads) ∧ Accounts h (r.readAll reads).journalRecExecuted w q ∧
      ∀ base, CaughtUp h base r → CaughtUp h base (r.readAll reads) := by
  induction reads generalizing r with
  | nil => exact ⟨hr, hw, fun _ hbase => hbase⟩
  | cons read reads ih =>
    have htail : ∀ read ∈ reads, failed read = false :=
      fun read hread => hok read (mem_cons_of_mem _ hread)
    obtain ⟨item, isSuccessful⟩ := read
    cases item with
    | lsn n =>
      -- a marker over entries that were not forwarded
      have hread : r.stableSyncRead (.lsn n) isSuccessful =
        { r with journalRecExecuted := n + 1 } := by
        simp [stableSyncRead, adoptAuthoritativeLsn, hr.peer, hr.ok]
      have hstep := ih (r := { r with journalRecExecuted := n + 1 }) ⟨hr.peer, hr.ok⟩ hw.2 htail
      rw [readAll, foldl_cons, hread]
      exact ⟨hstep.1, hstep.2.1, fun base hbase => hstep.2.2 base (hbase.resolved hw.1)⟩
    | entry item =>
      obtain ⟨-, hitem, hpass, hrest⟩ := hw
      have hcounts : counts (.entry item, isSuccessful) = true := by
        have := hok _ mem_cons_self
        simpa [failed] using this
      have hstep := ih (r := r.countExecuted item) ⟨hr.peer, hr.ok⟩ hrest htail
      rw [readAll, foldl_cons, stableSyncRead_of_counts hcounts]
      exact ⟨hstep.1, hstep.2.1, fun base hbase => hstep.2.2 base (hbase.countExecuted hitem hpass)⟩

/-- After a failure markers are ignored, and the position moves by what counts. -/
theorem readAll_of_applyFailed (hpeer : r.peerMode = true) (hfail : r.applyFailed = true) :
    (r.readAll reads).journalRecExecuted = r.journalRecExecuted + reads.countP counts := by
  induction reads generalizing r with
  | nil => rfl
  | cons read reads ih =>
    obtain ⟨item, isSuccessful⟩ := read
    rw [readAll, foldl_cons, countP_cons]
    cases item with
    | lsn n =>
      have hread : r.stableSyncRead (.lsn n) isSuccessful = r := by
        simp [stableSyncRead, adoptAuthoritativeLsn, hpeer, hfail]
      rw [hread]
      exact ih hpeer hfail
    | entry item =>
      cases hc : counts (.entry item, isSuccessful) with
      | true =>
        have hstep := ih (r := r.countExecuted item) hpeer hfail
        rw [stableSyncRead_of_counts hc]
        refine hstep.trans ?_
        simp only [countExecuted, if_true]
        omega
      | false =>
        have hsame : ({ r with applyFailed := true } : DflyShardReplica) = r := by rw [← hfail]
        rw [stableSyncRead_of_failed hpeer hc, hsame]
        exact ih hpeer hfail

end DflyShardReplica

end Drakeydb.Journal
