import Mathlib.Data.Int.Notation
import Drakeydb.Journal.Types

/-!
# Journal, Streamer and Replica of a Peer Link

One shard's journal with its bounded ring buffer, the streamer that forwards entries to a peer, and
the peer's reading loop. The streamer drops what does not pass the peer-echo filter and sends `LSN`
markers for the gaps; the replica counts what it reads and adopts every marker.

A stream carries `WireItem`s. An entry's LSN is not on the wire: the replica reads an item's opcode
and contents only.
-/

namespace Drakeydb.Journal

/-! ## §1 The journal -/

/-- `JournalSlice`: the next LSN and the entries that are still in the ring buffer. -/
structure JournalSlice where
  lsn : ℕ
  ringBuffer : List JournalItem
  deriving DecidableEq

section

variable (j : JournalSlice)

/-- The item `AddLogRecord` makes of an entry. An announcement of another node's index is itself
    authored here. -/
def JournalSlice.itemOf (entry : Entry) : JournalItem where
  lsn := j.lsn
  data := entry
  originIdx := if entry.opcode = .origin then kSelfIdx else entry.originIdx
  entryFlags := entry.entryFlags
  opcode := entry.opcode

/-- The rest of `AddLogRecord` and `CallOnChange`, after the consumers have seen the item. -/
def JournalSlice.push (item : JournalItem) : JournalSlice :=
  ⟨j.lsn + 1, j.ringBuffer ++ [item]⟩

/-- `CleanEntries`: the ring buffer forgets its oldest entries, by size or by age. -/
def JournalSlice.cleanEntries (count : ℕ) : JournalSlice :=
  { j with ringBuffer := j.ringBuffer.drop count }

def JournalSlice.isLSNInBuffer (lsn : ℕ) : Bool :=
  match j.ringBuffer.head?, j.ringBuffer.getLast? with
  | some front, some back =>
    if j.ringBuffer.length = 1 then decide (front.lsn = lsn)
    else decide (front.lsn ≤ lsn ∧ lsn ≤ back.lsn)
  | _, _ => false

def JournalSlice.getEntryMeta (lsn : ℕ) : Option JournalItem :=
  j.ringBuffer.head?.bind fun front => j.ringBuffer[lsn - front.lsn]?

def JournalSlice.isLSNInPartialSyncBuffer (lsn : ℕ) : Bool :=
  decide (j.lsn = lsn) || j.isLSNInBuffer lsn

end

/-! ## §2 The streamer -/

/-- What goes over the socket: an `LSN` marker, or an entry's bytes. -/
inductive WireItem where
  | lsn (masterLsn : ℕ)
  | entry (item : JournalItem)
  deriving DecidableEq

/-- `JournalStreamer::Config`. -/
structure StreamerConfig where
  shouldSentLsn : Bool
  startPartialSyncAt : ℕ
  peerMode : Bool
  lsnMarkerThrottleSec : ℤ
  deriving DecidableEq

/-- `JournalStreamer`. `running` is its context's state; `registered` says that the journal calls
    it for every new entry; `next` is the local `lsn` of the catch-up loop, the next entry to
    consume. -/
structure JournalStreamer where
  config : StreamerConfig
  lastLsnTime : ℤ
  lastLsnWriten : ℕ
  running : Bool
  registered : Bool
  next : ℕ
  deriving DecidableEq

/-- The constructor and `Start`. A streamer without a starting point is registered at once, at the
    journal's next LSN. -/
def JournalStreamer.start (config : StreamerConfig) (journalLsn : ℕ) : JournalStreamer where
  config := config
  lastLsnTime := 0
  lastLsnWriten := if config.startPartialSyncAt > 0 then config.startPartialSyncAt - 1 else 0
  running := true
  registered := decide (config.startPartialSyncAt = 0)
  next := if config.startPartialSyncAt > 0 then config.startPartialSyncAt else journalLsn

section

variable (s : JournalStreamer)

def JournalStreamer.shouldWrite (item : JournalItem) : Bool :=
  if !s.running then false
  else if !s.config.peerMode then true
  else passesPeerEchoFilter item

/-- Is a periodic marker due?  A throttle of 0 makes it due always. -/
def JournalStreamer.markerDue (now : ℤ) : Bool :=
  decide (s.config.lsnMarkerThrottleSec = 0) ||
    decide (now - s.lastLsnTime > s.config.lsnMarkerThrottleSec)

/-- `ConsumeJournalChange`: the new state and what was written to the socket. -/
def JournalStreamer.consumeJournalChange (item : JournalItem) (now : ℤ) :
    JournalStreamer × List WireItem :=
  if !s.shouldWrite item then
    -- a dropped entry is resolved: say so when the timer allows
    if s.config.peerMode && s.running && s.markerDue now then
      ({ s with lastLsnTime := now, lastLsnWriten := item.lsn }, [.lsn item.lsn])
    else (s, [])
  else
    let gap := if s.config.peerMode && decide (item.lsn ≠ s.lastLsnWriten + 1) then
      [WireItem.lsn (item.lsn - 1)] else []
    let s' := { s with lastLsnWriten := item.lsn }
    if s.config.shouldSentLsn && s.markerDue now then
      ({ s' with lastLsnTime := now }, gap ++ [.entry item] ++ [.lsn item.lsn])
    else (s', gap ++ [.entry item])

/-- One turn of `MaybePartialStreamLSNs`: consume the next entry from the ring buffer; at its end
    register for the live entries, or give up when the next entry has been evicted. -/
def JournalStreamer.maybePartialStreamLSNs (j : JournalSlice) (now : ℤ) :
    JournalStreamer × List WireItem :=
  if s.registered || !s.running then (s, [])
  else if j.isLSNInBuffer s.next then
    match j.getEntryMeta s.next with
    | some item =>
      let (s', out) := s.consumeJournalChange item now
      ({ s' with next := s.next + 1 }, out)
    | none => (s, [])
  else if j.lsn ≠ s.next then ({ s with running := false }, [])
  else ({ s with registered := true }, [])

/-- The journal's callback for a new entry. A streamer whose context is not running writes
    nothing any more. -/
def JournalStreamer.onAppend (item : JournalItem) (now : ℤ) :
    JournalStreamer × List WireItem :=
  if s.registered then
    let (s', out) := s.consumeJournalChange item now
    ({ s' with next := if s.running then s.next + 1 else s.next }, out)
  else (s, [])

end

/-! ## §3 The replica -/

/-- `DflyShardReplica`. `executed` lists what the flow has executed so far. -/
structure DflyShardReplica where
  peerMode : Bool
  journalRecExecuted : ℕ
  applyFailed : Bool
  executed : List JournalItem
  deriving DecidableEq

namespace DflyShardReplica

def adoptAuthoritativeLsn (r : DflyShardReplica) (masterLsn : ℕ) : DflyShardReplica :=
  if !r.peerMode then r
  else if r.applyFailed then r
  else { r with journalRecExecuted := masterLsn + 1 }

/-- An entry was executed and counts. -/
def countExecuted (r : DflyShardReplica) (item : JournalItem) : DflyShardReplica :=
  { r with journalRecExecuted := r.journalRecExecuted + 1, executed := r.executed ++ [item] }

/-- One turn of the loop of `StableSyncDflyReadFb`. `isSuccessful` is what `ExecuteTx` returns
    for a command. -/
def stableSyncRead (r : DflyShardReplica) (item : WireItem) (isSuccessful : Bool) :
    DflyShardReplica :=
  match item with
  | .lsn masterLsn => r.adoptAuthoritativeLsn masterLsn
  | .entry item =>
    if item.opcode = .ping then r.countExecuted item
    else if item.opcode = .origin then r.countExecuted item
    else if isSuccessful then r.countExecuted item
    else if r.peerMode then { r with applyFailed := true }
    else r

end DflyShardReplica

end Drakeydb.Journal
