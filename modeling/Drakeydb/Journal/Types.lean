import Mathlib.Data.List.Basic

/-!
# Journal Entries

The vocabulary of the journal: opcodes, entries as they are recorded, entries as they are parsed,
and the items the per-shard journal keeps for its consumers.

Byte strings are lists of bytes. An item's `data` field holds the serialized entry in the source;
here it holds the entry, and `Journal.Serializer` is about the bytes.
-/

namespace Drakeydb.Journal

/-- A string of bytes. -/
abbrev Bytes := List UInt8

inductive Op where
  | select
  | expired
  | command
  | ping
  | lsn
  | origin
  deriving DecidableEq

/-- The opcode's byte. -/
def Op.code : Op → UInt8
  | .select => 6
  | .expired => 9
  | .command => 10
  | .ping => 13
  | .lsn => 15
  | .origin => 16

/-- `kEntryFlagExpired`: the deletion of an expired key. -/
def kEntryFlagExpired : UInt8 := 1

/-- `kEntryFlagDerived`: the deletion of a collection that became empty. -/
def kEntryFlagDerived : UInt8 := 2

def kSelfIdx : UInt32 := 0

/-- `Entry::Payload`: a command and its arguments. -/
structure Payload where
  cmd : Bytes
  args : List Bytes
  deriving DecidableEq

/-- `journal::Entry`, an entry as it is recorded. -/
structure Entry where
  txid : UInt64 := 0
  opcode : Op
  dbid : UInt16 := 0
  slot : Option UInt16 := none
  lsn : UInt64 := 0
  originIdx : UInt32 := 0
  mvcc : UInt64 := 0
  entryFlags : UInt8 := 0
  payload : Payload := ⟨[], []⟩
  deriving DecidableEq

/-- The opcodes that are recorded in a journal: commands, pings and origin announcements. A
    `SELECT` exists only inside another entry's bytes, an `LSN` only on a streamer's socket, and
    `EXPIRED` is no longer written. -/
def Op.recorded : Op → Bool
  | .command | .ping | .origin => true
  | .select | .expired | .lsn => false

/-- `JournalItem`: an entry with its position in the journal, and the metadata that consumers
    filter by. -/
structure JournalItem where
  lsn : ℕ
  data : Entry
  originIdx : UInt32
  entryFlags : UInt8
  opcode : Op
  deriving DecidableEq

/-- `PassesPeerEchoFilter`: what a node forwards to a peer, its own writes only. -/
def passesPeerEchoFilter (item : JournalItem) : Bool :=
  if item.originIdx ≠ kSelfIdx then false
  else if item.entryFlags &&& kEntryFlagExpired ≠ 0 then false
  else if item.entryFlags &&& kEntryFlagDerived ≠ 0 then false
  else if item.opcode = .origin then false
  else true

end Drakeydb.Journal
