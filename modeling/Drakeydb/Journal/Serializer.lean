import Mathlib.Tactic.Ring
import Drakeydb.Journal.Types
import Drakeydb.Journal.ByteReader

/-!
# Journal Writer and Reader

The writer turns entries into bytes, announcing a database index only when it changes; the reader
turns bytes into entries and keeps the last announced index. A `SELECT` is consumed by the reader:
it is never returned as an entry of its own. `cmn::BackedArguments` keeps the strings of a command
in one buffer, each followed by a zero byte, with the 32-bit offset of every string beside it.
-/

namespace Drakeydb.Journal

open List

structure BackedArguments where
  offsets : List UInt32
  storage : Bytes
  deriving DecidableEq

namespace BackedArguments

/-- `clear`. -/
def empty : BackedArguments := ⟨[], []⟩

/-- `PushArg`: room for a string of this length and its zero byte. -/
def pushArg (b : BackedArguments) (len : ℕ) : BackedArguments :=
  ⟨b.offsets ++ [UInt32.ofNat b.storage.length], b.storage ++ List.replicate (len + 1) 0⟩

/-- Write through `data(index)`. -/
def setData (b : BackedArguments) (index : ℕ) (bytes : Bytes) : BackedArguments :=
  let offset := (b.offsets.getD index 0).toNat
  { b with storage := b.storage.take offset ++ bytes ++ b.storage.drop (offset + bytes.length) }

/-- `elem_capacity`, in 32-bit arithmetic. -/
def elemCapacity (b : BackedArguments) (index : ℕ) : UInt32 :=
  let next := if index + 1 ≥ b.offsets.length then UInt32.ofNat b.storage.length
    else b.offsets.getD (index + 1) 0
  next - b.offsets.getD index 0

/-- `at`. -/
def get (b : BackedArguments) (index : ℕ) : Bytes :=
  (b.storage.drop (b.offsets.getD index 0).toNat).take ((b.elemCapacity index).toNat - 1)

def view (b : BackedArguments) : List Bytes := (List.range b.offsets.length).map b.get

/-- The buffer's contents for some strings. -/
def stored (strs : List Bytes) : Bytes := strs.flatMap fun str => str ++ [0]

/-- The strings are what the buffer holds. -/
structure Holds (b : BackedArguments) (strs : List Bytes) : Prop where
  storage : b.storage = stored strs
  offsets : b.offsets =
    (List.range strs.length).map fun i => UInt32.ofNat (stored (strs.take i)).length

theorem holds_empty : Holds empty [] := ⟨rfl, rfl⟩

theorem stored_append (strs strs' : List Bytes) :
    stored (strs ++ strs') = stored strs ++ stored strs' := flatMap_append

theorem length_stored (strs : List Bytes) :
    (stored strs).length = (strs.map List.length).sum + strs.length := by
  induction strs with
  | nil => rfl
  | cons str strs ih =>
    have hcons : stored (str :: strs) = str ++ [0] ++ stored strs := by simp [stored]
    rw [hcons, length_append, length_append, ih, length_singleton, map_cons, sum_cons, length_cons]
    omega

theorem length_stored_take_le (strs : List Bytes) (i : ℕ) :
    (stored (strs.take i)).length ≤ (stored strs).length := by
  have h := congrArg length (stored_append (strs.take i) (strs.drop i))
  rw [take_append_drop, length_append] at h
  omega

variable {strs : List Bytes} {i : ℕ} {str : Bytes}

theorem stored_take_succ (h : strs[i]? = some str) :
    stored (strs.take (i + 1)) = stored (strs.take i) ++ (str ++ [0]) := by
  rw [take_add_one, h, stored_append]
  simp [stored]

variable {b : BackedArguments}

section

variable (h : Holds b strs)
include h

theorem Holds.getD_offsets (hi : i < strs.length) (hlen : (stored strs).length < 2 ^ 32) :
    (b.offsets.getD i 0).toNat = (stored (strs.take i)).length := by
  have hle := length_stored_take_le strs i
  rw [h.offsets, getD_eq_getElem?_getD, getElem?_map, getElem?_range hi]
  show (UInt32.ofNat _).toNat = _
  exact Nat.mod_eq_of_lt (by omega)

theorem Holds.push (str : Bytes) (hlen : (stored strs).length < 2 ^ 32) :
    Holds ((b.pushArg str.length).setData strs.length str) (strs ++ [str]) := by
  have hcount : b.offsets.length = strs.length := by
    simp [h.offsets]
  have hoffset : ((b.pushArg str.length).offsets.getD strs.length 0).toNat =
    (stored strs).length := by
    rw [pushArg, ← hcount, getD_eq_getElem?_getD, getElem?_append_right le_rfl,
      Nat.sub_self, h.storage]
    show (UInt32.ofNat _).toNat = _
    exact Nat.mod_eq_of_lt hlen
  constructor
  · -- the zeros that were pushed make way for the string, the last one stays
    have hroom : (b.pushArg str.length).storage = stored strs ++
      (replicate str.length 0 ++ [0]) := by
      rw [pushArg, h.storage, replicate_succ']
    rw [setData]
    simp only [hoffset, hroom]
    rw [take_left, ← drop_drop, drop_left, drop_left' length_replicate, stored_append, append_assoc]
    simp [stored]
  · show b.offsets ++ [UInt32.ofNat b.storage.length] = _
    rw [h.offsets, h.storage, length_append, length_singleton, range_succ,
      map_append, map_singleton, take_left]
    congr 1
    apply map_congr_left
    intro i hi
    rw [take_append_of_le_length (mem_range.mp hi).le]

theorem Holds.elemCapacity (hi : strs[i]? = some str) (hlen : (stored strs).length < 2 ^ 32) :
    (b.elemCapacity i).toNat = str.length + 1 := by
  have hlt : i < strs.length := (List.getElem?_eq_some_iff.mp hi).1
  have hcount : b.offsets.length = strs.length := by
    simp [h.offsets]
  have hsucc : (stored (strs.take (i + 1))).length = (stored (strs.take i)).length +
    (str.length + 1) := by
    rw [stored_take_succ hi]
    simp
  have hoffset := h.getD_offsets hlt hlen
  -- the next offset, or the end of the buffer
  have hnext : (if i + 1 ≥ b.offsets.length then UInt32.ofNat b.storage.length
      else b.offsets.getD (i + 1) 0).toNat = (stored (strs.take (i + 1))).length := by
    by_cases hend : i + 1 ≥ b.offsets.length
    · rw [if_pos hend, h.storage, UInt32.toNat_ofNat', take_of_length_le (by omega)]
      exact Nat.mod_eq_of_lt hlen
    · rw [if_neg hend]
      exact h.getD_offsets (by omega) hlen
  rw [BackedArguments.elemCapacity, UInt32.toNat_sub_of_le, hnext, hoffset, hsucc]
  · omega
  · rw [UInt32.le_iff_toNat_le, hnext, hoffset, hsucc]
    omega

/-- **What was pushed is read back.** -/
theorem Holds.view (hlen : (stored strs).length < 2 ^ 32) : b.view = strs := by
  have hcount : b.offsets.length = strs.length := by
    rw [h.offsets, length_map, length_range]
  apply ext_getElem?
  intro i
  rw [BackedArguments.view, getElem?_map, hcount]
  rcases Nat.lt_or_ge i strs.length with hi | hi
  · have hstr : strs[i]? = some strs[i] := getElem?_eq_getElem hi
    have hsplit : stored strs =
        stored (strs.take i) ++ (strs[i] ++ ([0] ++ stored (strs.drop (i + 1)))) := by
      conv_lhs => rw [← take_append_drop (i + 1) strs]
      rw [stored_append, stored_take_succ hstr, append_assoc, append_assoc]
    rw [getElem?_range hi, hstr, Option.map_some, get, h.elemCapacity hstr hlen,
      h.getD_offsets hi hlen, h.storage, hsplit, drop_left, Nat.add_sub_cancel, take_left]
  · rw [getElem?_eq_none (by rw [length_range]; exact hi), getElem?_eq_none hi]
    rfl

end

end BackedArguments

/-! ## §1 The writer -/

structure JournalWriter where
  curDbid : Option UInt16
  extendedFraming : Bool
  deriving DecidableEq

/-- `Write(string_view)`. -/
def writeString (str : Bytes) : Bytes := writePackedUInt (UInt64.ofNat str.length) ++ str

/-- The number of bytes of a command and its arguments. -/
def Payload.size (payload : Payload) : ℕ := payload.cmd.length + (payload.args.map List.length).sum

/-- `Write(Payload)`. -/
def writePayload (payload : Payload) : Bytes :=
  if payload.cmd = [] then []
  else
    writePackedUInt (UInt64.ofNat (1 + payload.args.length)) ++
      writePackedUInt (UInt64.ofNat payload.size) ++ writeString payload.cmd ++
      payload.args.flatMap writeString

/-- An opcode as a packed integer. -/
def writeOp (opcode : Op) : Bytes := writePackedUInt opcode.code.toUInt64

/-- The bytes of an entry after its opcode; `none` is the `LOG(FATAL)` of an opcode that is not
    written any more. -/
def writeBody (extendedFraming : Bool) (entry : Entry) : Option Bytes :=
  match entry.opcode with
  | .select => some (writePackedUInt entry.dbid.toUInt64)
  | .lsn => some (writePackedUInt entry.lsn)
  | .ping => some []
  | .command => some (writePackedUInt entry.txid ++
      (if !extendedFraming then writePackedUInt 1
        else writePackedUInt 2 ++ writePackedUInt entry.originIdx.toUInt64 ++
          writePackedUInt entry.mvcc ++ writePackedUInt entry.entryFlags.toUInt64) ++
      writePayload entry.payload)
  | .origin => some (writePackedUInt entry.originIdx.toUInt64 ++ writeString entry.payload.cmd)
  | .expired => none

/-- Does the entry need its database announced? -/
def JournalWriter.needsSelect (w : JournalWriter) (entry : Entry) : Bool :=
  decide (entry.opcode ≠ .select) && decide (entry.opcode ≠ .lsn) &&
    decide (entry.opcode ≠ .ping) && decide (entry.opcode ≠ .origin) &&
    decide (w.curDbid ≠ some entry.dbid)

/-- `Write(Entry)`: the writer afterwards and the bytes. -/
def JournalWriter.write (w : JournalWriter) (entry : Entry) : Option (JournalWriter × Bytes) :=
  if entry.opcode = .origin ∧ w.extendedFraming = false then some (w, [])
  else (writeBody w.extendedFraming entry).map fun body =>
    if w.needsSelect entry then
      ({ w with curDbid := some entry.dbid },
        writeOp .select ++ writePackedUInt entry.dbid.toUInt64 ++ (writeOp entry.opcode ++ body))
    else (w, writeOp entry.opcode ++ body)

/-- Entries written one after another. -/
def JournalWriter.writeAll (w : JournalWriter) : List Entry → Option Bytes
  | [] => some []
  | entry :: entries => do
    let (w', bytes) ← w.write entry
    let rest ← w'.writeAll entries
    pure (bytes ++ rest)

/-! ## §2 The reader -/

/-- `journal::ParsedEntry`. The opcode is the byte that was read. -/
structure ParsedEntry where
  txid : UInt64
  opcode : UInt8
  dbid : UInt16
  slot : Option UInt16
  lsn : UInt64
  originIdx : UInt32
  mvcc : UInt64
  entryFlags : UInt8
  cmd : BackedArguments
  originUuid : Bytes
  deriving DecidableEq

def kMaxOriginUuidLen : UInt64 := 128

/-- A fixed-width type's greatest value. -/
def uint8Max : UInt64 := 0xFF
def uint16Max : UInt64 := 0xFFFF
def uint32Max : UInt64 := 0xFFFFFFFF
def uint64Max : UInt64 := 0xFFFFFFFFFFFFFFFF

open ByteReader (readUInt readString)

/-- The loop of `ReadCommand`: `index` strings are in, `numStrings` are to come, with `cmdSize`
    bytes left. -/
def readStrings (plan : ReadPlan) (index : ℕ) :
    (numStrings : ℕ) → (cmdSize : UInt64) → BackedArguments → Reader BackedArguments
  | 0, _, data => pure data
  | numStrings + 1, cmdSize, data => do
    let size ← readUInt plan uint64Max
    if size > cmdSize then throw .ioError
    else do
      let str ← readString plan size.toNat
      readStrings plan (index + 1) numStrings (cmdSize - size)
        ((data.pushArg size.toNat).setData index str)

def readCommand (plan : ReadPlan) (data : BackedArguments) : Reader BackedArguments := do
  let numStrings ← readUInt plan uint64Max
  let cmdSize ← readUInt plan uint64Max
  readStrings plan 0 numStrings.toNat cmdSize data

/-- What `ReadEntry` resets in the caller's entry. -/
def ParsedEntry.reset (dest : ParsedEntry) (dbid : UInt16) (opcode : UInt8) : ParsedEntry :=
  { dest with
    dbid := dbid
    opcode := opcode
    cmd := BackedArguments.empty
    originIdx := 0
    mvcc := 0
    entryFlags := 0
    originUuid := [] }

/-- The rest of an `ORIGIN` entry. -/
def readOrigin (plan : ReadPlan) (dest : ParsedEntry) : Reader ParsedEntry := do
  let originIdx ← readUInt plan uint32Max
  let uuidLen ← readUInt plan uint64Max
  if uuidLen > kMaxOriginUuidLen then throw .illegalByteSequence
  else do
    let uuid ← readString plan uuidLen.toNat
    pure { dest with originIdx := originIdx.toUInt32, originUuid := uuid }

/-- The framing-version header. -/
def readFraming (plan : ReadPlan) (dest : ParsedEntry) : Reader ParsedEntry := do
  let framingVersion ← readUInt plan uint32Max
  if framingVersion = 2 then do
    let originIdx ← readUInt plan uint32Max
    let mvcc ← readUInt plan uint64Max
    let entryFlags ← readUInt plan uint8Max
    pure { dest with
      originIdx := originIdx.toUInt32
      mvcc := mvcc
      entryFlags := entryFlags.toUInt8 }
  else if framingVersion ≠ 1 then throw .illegalByteSequence
  else pure dest

/-- `ReadEntry` after the opcode, for every opcode but `SELECT`. -/
def readBody (plan : ReadPlan) (dest : ParsedEntry) : Reader ParsedEntry :=
  if dest.opcode = Op.ping.code then pure dest
  else if dest.opcode = Op.lsn.code then do
    let lsn ← readUInt plan uint64Max
    pure { dest with lsn := lsn }
  else if dest.opcode = Op.origin.code then readOrigin plan dest
  else do
    let txid ← readUInt plan uint64Max
    let dest ← readFraming plan { dest with txid := txid }
    let cmd ← readCommand plan dest.cmd
    pure { dest with cmd := cmd }

/-- `ReadEntry` of a reader at database `dbid`: the reader's database afterwards and the entry.
    `fuel` bounds the number of `SELECT`s in a row, each of which takes a byte at least. -/
def readEntryFrom (plan : ReadPlan) (dest : ParsedEntry) :
    (fuel : ℕ) → (dbid : UInt16) → Reader (UInt16 × ParsedEntry)
  | 0, _ => throw .ioError
  | fuel + 1, dbid => do
    let intOp ← readUInt plan uint8Max
    if intOp.toUInt8 = Op.select.code then do
      let dbid' ← readUInt plan uint16Max
      readEntryFrom plan dest fuel dbid'.toUInt16
    else do
      let entry ← readBody plan (dest.reset dbid intOp.toUInt8)
      pure (dbid, entry)

structure JournalReader where
  bytes : ByteReader
  dbid : UInt16
  deriving DecidableEq

/-- `ReadEntry`, into the caller's `dest`. -/
def JournalReader.readEntry (plan : ReadPlan) (r : JournalReader) (dest : ParsedEntry) :
    Except ErrorCode (ParsedEntry × JournalReader) := do
  let ((dbid, entry), bytes) ←
    (readEntryFrom plan dest (r.bytes.pending.length + 1) r.dbid).run r.bytes
  pure (entry, ⟨bytes, dbid⟩)

/-- One `ReadEntry` for each of the caller's entries. -/
def JournalReader.readEntries (plan : ReadPlan) (r : JournalReader) :
    List ParsedEntry → Except ErrorCode (List ParsedEntry × JournalReader)
  | [] => .ok ([], r)
  | dest :: dests => do
    let (entry, r') ← r.readEntry plan dest
    let (entries, r'') ← r'.readEntries plan dests
    pure (entry :: entries, r'')

end Drakeydb.Journal
